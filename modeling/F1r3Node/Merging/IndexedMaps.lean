import F1r3Node.Merging.MergingLogic

/-! # The indexed maps agree with the pairwise predicates

Each bucket of an inverted index generates exactly the pairs of positions that the corresponding
clause of the pairwise predicate relates.
-/

namespace F1r3Node.Merging

open Shared Space Lib

def Linked (pairs : List (Nat × Nat)) (i j : Nat) : Prop := (i, j) ∈ pairs ∨ (j, i) ∈ pairs

variable {i j : Nat}

theorem linked_append {p q : List (Nat × Nat)} :
    Linked (p ++ q) i j ↔ Linked p i j ∨ Linked q i j := by
  simp only [Linked, List.mem_append]
  tauto

theorem linked_of_mem_iff {pairs : List (Nat × Nat)} {Rel : Nat → Nat → Prop}
    (hSymm : ∀ i j, Rel i j → Rel j i) (hMem : ∀ i j, (i, j) ∈ pairs ↔ i < j ∧ Rel i j) :
    Linked pairs i j ↔ i ≠ j ∧ Rel i j := by
  rw [Linked, hMem, hMem]
  constructor
  · rintro (⟨hLt, hRel⟩ | ⟨hLt, hRel⟩)
    · exact ⟨hLt.ne, hRel⟩
    · exact ⟨hLt.ne', hSymm _ _ hRel⟩
  · rintro ⟨hNe, hRel⟩
    obtain hLt | hLt := Nat.lt_or_gt_of_ne hNe
    · exact .inl ⟨hLt, hRel⟩
    · exact .inr ⟨hLt, hSymm _ _ hRel⟩

theorem mem_pairsOf {l : List Nat} (hSorted : l.Pairwise (· < ·)) :
    (i, j) ∈ pairsOf l ↔ i ∈ l ∧ j ∈ l ∧ i < j := by
  induction l with
  | nil => simp [pairsOf]
  | cons a l ih =>
    obtain ⟨hHead, hTail⟩ := List.pairwise_cons.mp hSorted
    simp only [pairsOf, List.mem_append, List.mem_map, Prod.mk.injEq, exists_eq_right_right, ih hTail,
      List.mem_cons]
    constructor
    · rintro (⟨hj, rfl⟩ | ⟨hi, hj, hLt⟩)
      · exact ⟨.inl rfl, .inr hj, hHead j hj⟩
      · exact ⟨.inr hi, .inr hj, hLt⟩
    · rintro ⟨rfl | hi, rfl | hj, hLt⟩
      · exact absurd hLt (lt_irrefl _)
      · exact .inl ⟨hj, rfl⟩
      · exact absurd (hHead i hi) (lt_asymm hLt)
      · exact .inr ⟨hi, hj, hLt⟩

theorem loHi_eq_iff {a b : Nat} (hNe : a ≠ b) :
    loHi a b = (i, j) ↔ i < j ∧ ((a = i ∧ b = j) ∨ (a = j ∧ b = i)) := by
  unfold loHi
  split_ifs with hLt
  · rw [Prod.mk.injEq]
    omega
  · rw [Prod.mk.injEq]
    omega

section buckets

variable {α β κ : Type} [DecidableEq κ]

variable {i : Nat}

variable {k : κ}

theorem mem_positions_iff {index : InvertedIndex α κ} :
    i ∈ index.positions k ↔ ∃ a branches, index.lookup k = some (a, branches) ∧ i ∈ branches := by
  unfold InvertedIndex.positions
  cases index.lookup k with
  | none => simp
  | some entry =>
    obtain ⟨a, branches⟩ := entry
    simp

def RacesAt (persistent : α → Bool) (destroyedBy mergeableBy : InvertedIndex α κ) (i j : Nat) : Prop :=
  ∃ k a branches, destroyedBy.lookup k = some (a, branches) ∧ i ∈ branches ∧ j ∈ branches ∧
    persistent a = false ∧ ¬ (i ∈ mergeableBy.positions k ∧ j ∈ mergeableBy.positions k)

variable {destroyedBy mergeableBy : InvertedIndex α κ} {j : Nat}

theorem RacesAt.symm {persistent : α → Bool}
    (h : RacesAt persistent destroyedBy mergeableBy i j) : RacesAt persistent destroyedBy mergeableBy j i := by
  obtain ⟨k, a, branches, hLookup, hi, hj, hPersistent, hMergeable⟩ := h
  exact ⟨k, a, branches, hLookup, hj, hi, hPersistent, fun hBoth => hMergeable hBoth.symm⟩

theorem bothMergeable_iff :
    (match mergeableBy.lookup k with
      | some (_, branches) => decide (i ∈ branches) && decide (j ∈ branches)
      | none => false) = true ↔ i ∈ mergeableBy.positions k ∧ j ∈ mergeableBy.positions k := by
  unfold InvertedIndex.positions
  cases mergeableBy.lookup k with
  | none => simp
  | some entry => simp

theorem mem_raceEntry {persistent : α → Bool} {a : α} {branches : Finset Nat} :
    ((i, j) ∈ (if persistent a ∨ branches.card < 2 then []
      else (pairsOf (branches.sort (· ≤ ·))).filterMap fun (a, b) =>
        let bothMergeable := match mergeableBy.lookup k with
          | some (_, branches) => decide (a ∈ branches) && decide (b ∈ branches)
          | none => false
        if bothMergeable then none else some (loHi a b))) ↔
      i < j ∧ i ∈ branches ∧ j ∈ branches ∧ persistent a = false ∧
        ¬ (i ∈ mergeableBy.positions k ∧ j ∈ mergeableBy.positions k) := by
  split_ifs with hSkip
  · refine iff_of_false List.not_mem_nil ?_
    rintro ⟨hLt, hi, hj, hPersistent, -⟩
    obtain hTrue | hCard := hSkip
    · rw [hPersistent] at hTrue
      cases hTrue
    · have hTwo : 1 < branches.card := Finset.one_lt_card.mpr ⟨i, hi, j, hj, hLt.ne⟩
      omega
  · simp only [not_or, Bool.not_eq_true] at hSkip
    simp only [List.mem_filterMap, Prod.exists]
    constructor
    · rintro ⟨x, y, hPair, hSome⟩
      obtain ⟨hx, hy, hLt⟩ := (mem_pairsOf (Finset.sortedLT_sort branches).pairwise).mp hPair
      rw [Finset.mem_sort] at hx hy
      split_ifs at hSome with hBoth
      obtain ⟨hLt', ⟨rfl, rfl⟩ | ⟨rfl, rfl⟩⟩ := (loHi_eq_iff hLt.ne).mp (Option.some.inj hSome)
      · exact ⟨hLt, hx, hy, hSkip.1, fun h => hBoth (bothMergeable_iff.mpr h)⟩
      · exact absurd hLt (lt_asymm hLt')
    · rintro ⟨hLt, hi, hj, -, hNot⟩
      refine ⟨i, j, (mem_pairsOf (Finset.sortedLT_sort branches).pairwise).mpr
        ⟨(Finset.mem_sort _).mpr hi, (Finset.mem_sort _).mpr hj, hLt⟩, ?_⟩
      rw [if_neg fun h => hNot (bothMergeable_iff.mp h), loHi, if_pos hLt]

theorem mem_racePairs {persistent : α → Bool} :
    (i, j) ∈ racePairs persistent destroyedBy mergeableBy ↔
      i < j ∧ RacesAt persistent destroyedBy mergeableBy i j := by
  rw [racePairs, List.mem_flatMap]
  constructor
  · rintro ⟨⟨k, a, branches⟩, hMem, hPair⟩
    obtain ⟨hLt, hRest⟩ := mem_raceEntry.mp hPair
    exact ⟨hLt, k, a, branches, AList.mem_lookup_iff.mpr hMem, hRest⟩
  · rintro ⟨hLt, k, a, branches, hLookup, hRest⟩
    exact ⟨⟨k, a, branches⟩, AList.mem_lookup_iff.mp hLookup, mem_raceEntry.mpr ⟨hLt, hRest⟩⟩

theorem linked_racePairs {persistent : α → Bool} :
    Linked (racePairs persistent destroyedBy mergeableBy) i j ↔
      i ≠ j ∧ RacesAt persistent destroyedBy mergeableBy i j :=
  linked_of_mem_iff (fun _ _ h => h.symm) fun _ _ => mem_racePairs

def MeetsAt (left : InvertedIndex α κ) (right : InvertedIndex β κ) (i j : Nat) : Prop :=
  ∃ k, i ∈ left.positions k ∧ j ∈ right.positions k

theorem mem_meetingPairs {left : InvertedIndex α κ} {right : InvertedIndex β κ} :
    (i, j) ∈ meetingPairs left right ↔ i < j ∧ (MeetsAt left right i j ∨ MeetsAt left right j i) := by
  have hEntry : ∀ (k : κ) (branches : Finset Nat),
      ((i, j) ∈ (match right.lookup k with
        | some (_, others) => (branches.sort (· ≤ ·)).flatMap fun s =>
            (others.sort (· ≤ ·)).filterMap fun t => if s ≠ t then some (loHi s t) else none
        | none => [])) ↔
        i < j ∧ ((i ∈ branches ∧ j ∈ right.positions k) ∨ (j ∈ branches ∧ i ∈ right.positions k)) := by
    intro k branches
    unfold InvertedIndex.positions
    cases right.lookup k with
    | none => simp
    | some entry =>
      simp only [List.mem_flatMap, List.mem_filterMap, Finset.mem_sort, Option.map_some, Option.getD_some]
      constructor
      · rintro ⟨s, hs, t, ht, hSome⟩
        split_ifs at hSome with hNe
        obtain ⟨hLt, ⟨rfl, rfl⟩ | ⟨rfl, rfl⟩⟩ := (loHi_eq_iff hNe).mp (Option.some.inj hSome)
        · exact ⟨hLt, .inl ⟨hs, ht⟩⟩
        · exact ⟨hLt, .inr ⟨hs, ht⟩⟩
      · rintro ⟨hLt, ⟨hs, ht⟩ | ⟨hs, ht⟩⟩
        · exact ⟨i, hs, j, ht, by rw [if_pos hLt.ne, (loHi_eq_iff hLt.ne).mpr ⟨hLt, .inl ⟨rfl, rfl⟩⟩]⟩
        · exact ⟨j, hs, i, ht, by rw [if_pos hLt.ne', (loHi_eq_iff hLt.ne').mpr ⟨hLt, .inr ⟨rfl, rfl⟩⟩]⟩
  rw [meetingPairs, List.mem_flatMap]
  constructor
  · rintro ⟨⟨k, a, branches⟩, hMem, hPair⟩
    have hLookup := AList.mem_lookup_iff.mpr hMem
    obtain ⟨hLt, ⟨hi, hj⟩ | ⟨hj, hi⟩⟩ := (hEntry k branches).mp hPair
    · exact ⟨hLt, .inl ⟨k, mem_positions_iff.mpr ⟨a, branches, hLookup, hi⟩, hj⟩⟩
    · exact ⟨hLt, .inr ⟨k, mem_positions_iff.mpr ⟨a, branches, hLookup, hj⟩, hi⟩⟩
  · rintro ⟨hLt, ⟨k, hLeft, hRight⟩ | ⟨k, hLeft, hRight⟩⟩
    · obtain ⟨a, branches, hLookup, hi⟩ := mem_positions_iff.mp hLeft
      exact ⟨⟨k, a, branches⟩, AList.mem_lookup_iff.mp hLookup, (hEntry k branches).mpr ⟨hLt, .inl ⟨hi, hRight⟩⟩⟩
    · obtain ⟨a, branches, hLookup, hj⟩ := mem_positions_iff.mp hLeft
      exact ⟨⟨k, a, branches⟩, AList.mem_lookup_iff.mp hLookup, (hEntry k branches).mpr ⟨hLt, .inr ⟨hj, hRight⟩⟩⟩

theorem linked_meetingPairs {left : InvertedIndex α κ} {right : InvertedIndex β κ} :
    Linked (meetingPairs left right) i j ↔ i ≠ j ∧ (MeetsAt left right i j ∨ MeetsAt left right j i) :=
  linked_of_mem_iff (fun _ _ h => h.symm) fun _ _ => mem_meetingPairs

end buckets

theorem mem_globalPairs {n : Nat} {globalBranches : List Nat} :
    (i, j) ∈ globalPairs n globalBranches ↔
      i < j ∧ ((i ∈ globalBranches ∧ j < n) ∨ (j ∈ globalBranches ∧ i < n)) := by
  simp only [globalPairs, List.mem_flatMap, List.mem_filterMap, List.mem_range]
  constructor
  · rintro ⟨g, hg, o, ho, hSome⟩
    split_ifs at hSome with hNe
    obtain ⟨hLt, ⟨rfl, rfl⟩ | ⟨rfl, rfl⟩⟩ := (loHi_eq_iff hNe.symm).mp (Option.some.inj hSome)
    · exact ⟨hLt, .inl ⟨hg, ho⟩⟩
    · exact ⟨hLt, .inr ⟨hg, ho⟩⟩
  · rintro ⟨hLt, ⟨hg, ho⟩ | ⟨hg, ho⟩⟩
    · exact ⟨i, hg, j, ho, by rw [if_pos hLt.ne', (loHi_eq_iff hLt.ne).mpr ⟨hLt, .inl ⟨rfl, rfl⟩⟩]⟩
    · exact ⟨j, hg, i, ho, by rw [if_pos hLt.ne, (loHi_eq_iff hLt.ne').mpr ⟨hLt, .inr ⟨rfl, rfl⟩⟩]⟩

theorem linked_globalPairs {n : Nat} {globalBranches : List Nat} (hi : i < n) (hj : j < n) :
    Linked (globalPairs n globalBranches) i j ↔ i ≠ j ∧ (i ∈ globalBranches ∨ j ∈ globalBranches) := by
  rw [linked_of_mem_iff (fun _ _ h => h.symm) fun _ _ => mem_globalPairs, and_iff_left hi, and_iff_left hj]

section relationMap

variable {R : Type} [DecidableEq R]

def RelationMap.Related (m : RelationMap R) (r r' : R) : Prop := ∃ related, m.lookup r = some related ∧ r' ∈ related

variable {m : RelationMap R} {r : R}

theorem RelationMap.mem_relate {a b : R} : r ∈ m.relate a b ↔ r ∈ m := by
  unfold RelationMap.relate
  cases hLookup : m.lookup a with
  | none => exact Iff.rfl
  | some related =>
    have ha : a ∈ m := AList.lookup_isSome.mp (by rw [hLookup]; rfl)
    rw [AList.mem_insert]
    constructor
    · rintro (rfl | h)
      · exact ha
      · exact h
    · exact .inr

theorem RelationMap.related_relate {a b r' : R} :
    (m.relate a b).Related r r' ↔ m.Related r r' ∨ (a ∈ m ∧ r = a ∧ r' = b) := by
  unfold RelationMap.relate RelationMap.Related
  cases hLookup : m.lookup a with
  | none =>
    have ha : a ∉ m := fun h => by simpa [hLookup] using AList.lookup_isSome.mpr h
    simp [ha]
  | some related =>
    have ha : a ∈ m := AList.lookup_isSome.mp (by rw [hLookup]; rfl)
    by_cases hr : r = a
    · subst hr
      simp [hLookup, ha, or_comm]
    · simp [AList.lookup_insert_ne hr, hr]

variable {branches : List R}

theorem mem_foldl_insert_empty :
    r ∈ branches.foldl (fun result b => result.insert b ∅) m ↔ r ∈ branches ∨ r ∈ m := by
  induction branches generalizing m with
  | nil => simp
  | cons b branches ih =>
    rw [List.foldl_cons, ih, AList.mem_insert, List.mem_cons]
    tauto

theorem not_related_foldl_insert_empty (hm : ∀ r r', ¬ m.Related r r')
    (r r' : R) : ¬ RelationMap.Related (branches.foldl (fun result b => result.insert b ∅) m) r r' := by
  induction branches generalizing m with
  | nil => exact hm r r'
  | cons b branches ih =>
    refine ih ?_
    rintro s s' ⟨related, hLookup, hMem⟩
    by_cases hs : s = b
    · subst hs
      rw [AList.lookup_insert] at hLookup
      rw [← Option.some.inj hLookup] at hMem
      exact Finset.notMem_empty _ hMem
    · rw [AList.lookup_insert_ne hs] at hLookup
      exact hm s s' ⟨related, hLookup, hMem⟩

theorem foldl_relate_spec (branches : List R) (pairs : List (Nat × Nat))
    (hKeys : ∀ r, r ∈ m ↔ r ∈ branches) :
    let result := pairs.foldl (fun result pair =>
      match branches[pair.1]?, branches[pair.2]? with
      | some a, some b => (RelationMap.relate result a b).relate b a
      | _, _ => result) m
    (∀ r, r ∈ result ↔ r ∈ branches) ∧ ∀ r r', RelationMap.Related result r r' ↔ m.Related r r' ∨
      ∃ i j, branches[i]? = some r ∧ branches[j]? = some r' ∧ Linked pairs i j := by
  induction pairs generalizing m with
  | nil => exact ⟨hKeys, fun r r' => by simp [Linked]⟩
  | cons pair pairs ih =>
    obtain ⟨x, y⟩ := pair
    intro result
    have hLinked : ∀ i j, Linked ((x, y) :: pairs) i j ↔ (i = x ∧ j = y) ∨ (j = x ∧ i = y) ∨ Linked pairs i j := by
      intro i j
      simp only [Linked, List.mem_cons, Prod.mk.injEq]
      tauto
    -- a pair outside the list of branches is skipped, and cannot be asked for either
    have hSkip : (∀ a b, ¬ (branches[x]? = some a ∧ branches[y]? = some b)) → ∀ r r',
        (∃ i j, branches[i]? = some r ∧ branches[j]? = some r' ∧ Linked ((x, y) :: pairs) i j) ↔
          ∃ i j, branches[i]? = some r ∧ branches[j]? = some r' ∧ Linked pairs i j := by
      intro hNone r r'
      simp only [hLinked]
      constructor
      · rintro ⟨i, j, hi, hj, ⟨rfl, rfl⟩ | ⟨rfl, rfl⟩ | hRest⟩
        · exact absurd ⟨hi, hj⟩ (hNone r r')
        · exact absurd ⟨hj, hi⟩ (hNone r' r)
        · exact ⟨i, j, hi, hj, hRest⟩
      · rintro ⟨i, j, hi, hj, hRest⟩
        exact ⟨i, j, hi, hj, .inr (.inr hRest)⟩
    cases hx : branches[x]? with
    | none =>
      have hStep := ih hKeys
      simp only [result, List.foldl_cons, hx]
      exact ⟨hStep.1, fun r r' => by rw [hSkip (by simp [hx]), hStep.2]⟩
    | some a =>
      cases hy : branches[y]? with
      | none =>
        have hStep := ih hKeys
        simp only [result, List.foldl_cons, hx, hy]
        exact ⟨hStep.1, fun r r' => by rw [hSkip (by simp [hy]), hStep.2]⟩
      | some b =>
        have ha : a ∈ m := (hKeys a).mpr (List.mem_of_getElem? hx)
        have hb : b ∈ m := (hKeys b).mpr (List.mem_of_getElem? hy)
        have hStep := ih (m := (m.relate a b).relate b a) fun r => by
          rw [RelationMap.mem_relate, RelationMap.mem_relate, hKeys]
        simp only [result, List.foldl_cons, hx, hy]
        refine ⟨hStep.1, fun r r' => ?_⟩
        rw [hStep.2, RelationMap.related_relate, RelationMap.related_relate]
        simp only [RelationMap.mem_relate, ha, hb, true_and, hLinked]
        constructor
        · rintro (((hOld | ⟨rfl, rfl⟩) | ⟨rfl, rfl⟩) | ⟨i, j, hi, hj, hRest⟩)
          · exact .inl hOld
          · exact .inr ⟨x, y, hx, hy, .inl ⟨rfl, rfl⟩⟩
          · exact .inr ⟨y, x, hy, hx, .inr (.inl ⟨rfl, rfl⟩)⟩
          · exact .inr ⟨i, j, hi, hj, .inr (.inr hRest)⟩
        · rintro (hOld | ⟨i, j, hi, hj, ⟨rfl, rfl⟩ | ⟨rfl, rfl⟩ | hRest⟩)
          · exact .inl (.inl (.inl hOld))
          · rw [hx] at hi
            rw [hy] at hj
            exact .inl (.inl (.inr ⟨(Option.some.inj hi).symm, (Option.some.inj hj).symm⟩))
          · rw [hy] at hi
            rw [hx] at hj
            exact .inl (.inr ⟨(Option.some.inj hi).symm, (Option.some.inj hj).symm⟩)
          · exact .inr ⟨i, j, hi, hj, hRest⟩

theorem relationMap_spec (branches : List R) (pairs : List (Nat × Nat)) :
    (∀ r, r ∈ relationMap branches pairs ↔ r ∈ branches) ∧
      ∀ r r', (relationMap branches pairs).Related r r' ↔
        ∃ i j, branches[i]? = some r ∧ branches[j]? = some r' ∧ Linked pairs i j := by
  have hEmpty : ∀ r r', ¬ RelationMap.Related (∅ : RelationMap R) r r' := by
    rintro r r' ⟨related, hLookup, -⟩
    cases hLookup
  obtain ⟨hKeys, hRelated⟩ := foldl_relate_spec branches pairs
    (m := branches.foldl (fun result b => result.insert b ∅) ∅) fun r => by
      rw [mem_foldl_insert_empty]
      simp
  refine ⟨hKeys, fun r r' => ?_⟩
  exact (hRelated r r').trans (or_iff_right (not_related_foldl_insert_empty hEmpty r r'))

/-- The map has a key for every branch and relates two distinct branches, in both directions, if and
only if their event logs are related. -/
def RelationMap.Expresses (m : RelationMap R) (branches : List R) (eventLogs : List EventLogIndex)
    (Rel : EventLogIndex → EventLogIndex → Prop) : Prop :=
  (∀ r, r ∈ m ↔ r ∈ branches) ∧ (∀ r r', m.Related r r' → m.Related r' r) ∧
    ∀ r r', m.Related r r' ↔ r ≠ r' ∧ ∃ a b, (r, a) ∈ branches.zip eventLogs ∧
      (r', b) ∈ branches.zip eventLogs ∧ Rel a b

omit [DecidableEq R] in
theorem mem_zip_iff {eventLogs : List EventLogIndex} {a : EventLogIndex} :
    (r, a) ∈ branches.zip eventLogs ↔ ∃ i : Nat, branches[i]? = some r ∧ eventLogs[i]? = some a := by
  rw [List.mem_iff_getElem?]
  simp only [List.getElem?_zip_eq_some]

variable {Rel : EventLogIndex → EventLogIndex → Prop}

theorem relationMap_expresses {eventLogs : List EventLogIndex} (hNodup : branches.Nodup)
    (hLength : branches.length = eventLogs.length) {pairs : List (Nat × Nat)}
    (hPairs : ∀ i j a b, eventLogs[i]? = some a → eventLogs[j]? = some b →
      (Linked pairs i j ↔ i ≠ j ∧ Rel a b)) :
    (relationMap branches pairs).Expresses branches eventLogs Rel := by
  obtain ⟨hKeys, hRelated⟩ := relationMap_spec branches pairs
  refine ⟨hKeys, fun r r' h => ?_, fun r r' => ?_⟩
  · obtain ⟨i, j, hi, hj, hLinked⟩ := (hRelated r r').mp h
    exact (hRelated r' r).mpr ⟨j, i, hj, hi, hLinked.symm⟩
  · rw [hRelated]
    constructor
    · rintro ⟨i, j, hi, hj, hLinked⟩
      obtain ⟨hLt, -⟩ := List.getElem?_eq_some_iff.mp hi
      obtain ⟨hLt', -⟩ := List.getElem?_eq_some_iff.mp hj
      have ha := List.getElem?_eq_getElem (hLength ▸ hLt : i < eventLogs.length)
      have hb := List.getElem?_eq_getElem (hLength ▸ hLt' : j < eventLogs.length)
      obtain ⟨hNe, hRel⟩ := (hPairs i j _ _ ha hb).mp hLinked
      refine ⟨?_, _, _, mem_zip_iff.mpr ⟨i, hi, ha⟩, mem_zip_iff.mpr ⟨j, hj, hb⟩, hRel⟩
      rintro rfl
      exact hNe ((List.getElem?_inj hLt hNodup).mp (hi.trans hj.symm))
    · rintro ⟨hNe, a, b, ha, hb, hRel⟩
      obtain ⟨i, hi, hia⟩ := mem_zip_iff.mp ha
      obtain ⟨j, hj, hjb⟩ := mem_zip_iff.mp hb
      refine ⟨i, j, hi, hj, (hPairs i j a b hia hjb).mpr ⟨?_, hRel⟩⟩
      rintro rfl
      exact hNe (Option.some.inj (hi.symm.trans hj))

theorem linked_ite {eventLogs : List EventLogIndex} {pairs : List (Nat × Nat)}
    {n : Nat} (hn : n = eventLogs.length)
    (hPairs : ∀ i j a b, eventLogs[i]? = some a → eventLogs[j]? = some b → (Linked pairs i j ↔ i ≠ j ∧ Rel a b))
    (i j : Nat) (a b : EventLogIndex) (ha : eventLogs[i]? = some a) (hb : eventLogs[j]? = some b) :
    Linked (if n < 2 then [] else pairs) i j ↔ i ≠ j ∧ Rel a b := by
  split_ifs with hFew
  · obtain ⟨hi, -⟩ := List.getElem?_eq_some_iff.mp ha
    obtain ⟨hj, -⟩ := List.getElem?_eq_some_iff.mp hb
    refine iff_of_false (by simp [Linked]) fun h => h.1 ?_
    omega
  · exact hPairs i j a b ha hb

end relationMap

def sharedProduce : Produce := ⟨[1], [2], false, true, [], false⟩

def takesShared (hash : Bytes) : EventLogIndex :=
  EventLogIndex.new [.comm ⟨⟨[[1]], hash, false⟩, [sharedProduce], ∅, ∅⟩] (fun _ => false) (fun _ => false) ∅

def sendsShared : EventLogIndex :=
  EventLogIndex.new [.ioEvent (.produce sharedProduce)] (fun _ => false) (fun _ => false) ∅

theorem meetsAt_build {α β κ : Type} [DecidableEq κ] {key : α → κ} {key' : β → κ}
    {select : EventLogIndex → List α} {select' : EventLogIndex → List β} {eventLogs : List EventLogIndex}
    {a b : EventLogIndex} (ha : eventLogs[i]? = some a) (hb : eventLogs[j]? = some b) :
    MeetsAt (InvertedIndex.build key select eventLogs) (InvertedIndex.build key' select' eventLogs) i j ↔
      ∃ k, k ∈ (select a).map key ∧ k ∈ (select' b).map key' := by
  simp only [MeetsAt, InvertedIndex.mem_positions_build, ha, hb, Option.some.injEq, exists_eq_left', List.mem_map]

variable {e : EventLogIndex}

theorem mem_sourceProduces {k : Bytes} :
    k ∈ (sourceProduces e).map Produce.hash ↔
      k ∈ ((producesCreatedAndNotDestroyed e).diff e.producesMergeable).keys := by
  rw [producesCreatedAndNotDestroyed, KeyedSet.mem_keys_diff, KeyedSet.mem_keys_diff, KeyedSet.mem_keys_union,
    KeyedSet.mem_keys_diff]
  simp only [sourceProduces, List.map_append, List.mem_append, List.mem_map, List.mem_filter, Bool.and_eq_true,
    KeyedSet.not_contains_iff]
  constructor
  · rintro (⟨p, ⟨hp, ⟨hConsumed, hCopied⟩, hMergeable⟩, rfl⟩ | ⟨p, ⟨hp, hCopied, hMergeable⟩, rfl⟩)
    · exact ⟨⟨.inl ⟨KeyedSet.mem_keys.mpr ⟨p, hp, rfl⟩, hConsumed⟩, hCopied⟩, hMergeable⟩
    · exact ⟨⟨.inr (KeyedSet.mem_keys.mpr ⟨p, hp, rfl⟩), hCopied⟩, hMergeable⟩
  · rintro ⟨⟨⟨hLinear, hConsumed⟩ | hPersistent, hCopied⟩, hMergeable⟩
    · obtain ⟨p, hp, rfl⟩ := KeyedSet.mem_keys.mp hLinear
      exact .inl ⟨p, ⟨hp, ⟨hConsumed, hCopied⟩, hMergeable⟩, rfl⟩
    · obtain ⟨p, hp, rfl⟩ := KeyedSet.mem_keys.mp hPersistent
      exact .inr ⟨p, ⟨hp, hCopied, hMergeable⟩, rfl⟩

theorem mem_consumeKeys {s : ConsumeSet} {c : Consume} : c ∈ s.keys ↔ c ∈ s.items := by
  rw [KeyedSet.keys, List.map_id]

theorem mem_survivingConsumes {c : Consume} :
    c ∈ survivingConsumes e ↔ c ∈ (consumesCreatedAndNotDestroyed e).keys := by
  rw [consumesCreatedAndNotDestroyed, KeyedSet.mem_keys_union, KeyedSet.mem_keys_diff]
  simp only [survivingConsumes, List.mem_append, List.mem_filter, KeyedSet.not_contains_iff, mem_consumeKeys, id_eq]

theorem depends_iff {target source : EventLogIndex} :
    depends target source = true ↔
      (∃ k, k ∈ (sourceProduces source).map Produce.hash ∧ k ∈ target.producesConsumed.keys) ∨
        ∃ c, c ∈ survivingConsumes source ∧ c ∈ target.consumesProduced.keys := by
  simp only [depends, Bool.or_eq_true, Bool.not_eq_true', KeyedSet.isEmpty_eq_false_iff, KeyedSet.mem_keys_inter,
    mem_sourceProduces, mem_survivingConsumes]
  refine or_congr (exists_congr fun k => ?_) Iff.rfl
  simp only [KeyedSet.mem_keys_diff]
  tauto

theorem linked_dependsPairs {eventLogs : List EventLogIndex} (i j : Nat) (a b : EventLogIndex)
    (ha : eventLogs[i]? = some a) (hb : eventLogs[j]? = some b) :
    Linked (dependsPairs eventLogs) i j ↔ i ≠ j ∧ (depends a b = true ∨ depends b a = true) := by
  have hKeys : ∀ e : EventLogIndex, e.consumesProduced.items.map id = e.consumesProduced.keys := fun _ => rfl
  have hHashes : ∀ e : EventLogIndex, e.producesConsumed.items.map Produce.hash = e.producesConsumed.keys :=
    fun _ => rfl
  rw [dependsPairs, linked_append, linked_meetingPairs, linked_meetingPairs, meetsAt_build ha hb,
    meetsAt_build hb ha, meetsAt_build ha hb, meetsAt_build hb ha, depends_iff, depends_iff]
  simp only [hKeys, hHashes, List.map_id]
  rw [← and_or_left, or_or_or_comm, or_comm]

theorem computeDependsMapEventIndexed_expresses {R : Type} [DecidableEq R] (branches : List R)
    (eventLogs : List EventLogIndex) (hNodup : branches.Nodup) (hLength : branches.length = eventLogs.length) :
    ∃ m, computeDependsMapEventIndexed branches eventLogs = some m ∧
      m.Expresses branches eventLogs fun a b => depends a b = true ∨ depends b a = true := by
  refine ⟨_, if_neg (not_not.mpr hLength), ?_⟩
  exact relationMap_expresses hNodup hLength (linked_ite hLength linked_dependsPairs)

theorem computeDependsMapEventIndexed_taker_depends :
    ∃ m, computeDependsMapEventIndexed [0, 1] [sendsShared, takesShared [3]] = some m ∧ m.Related 0 1 := by
  obtain ⟨m, hMap, -, -, hRelated⟩ := computeDependsMapEventIndexed_expresses ([0, 1] : List Nat)
    [sendsShared, takesShared [3]] (by decide) rfl
  refine ⟨m, hMap, (hRelated 0 1).mpr ⟨by decide, sendsShared, takesShared [3], ?_, ?_, .inr (by decide)⟩⟩
  · exact List.mem_cons_self
  · exact List.mem_cons_of_mem _ List.mem_cons_self

section races

variable {α κ : Type} [DecidableEq κ] {key : α → κ} {persistent : α → Bool}

theorem exists_race_iff {U : Set α} (hU : Set.InjOn key U) {s t m n : KeyedSet key} (hs : ∀ x ∈ s.items, x ∈ U)
    (ht : ∀ x ∈ t.items, x ∈ U) :
    (∃ x, x ∈ (((s.inter t).diff (m.inter n)).filter fun x => !persistent x).items) ↔
      ∃ x ∈ s.items, key x ∈ t.keys ∧ ¬ (key x ∈ m.keys ∧ key x ∈ n.keys) ∧ persistent x = false := by
  simp only [KeyedSet.mem_filter, KeyedSet.mem_diff, KeyedSet.mem_inter_of_injOn hU hs ht, KeyedSet.mem_keys_inter,
    Bool.not_eq_true']
  constructor
  · rintro ⟨x, ⟨⟨hx, hx'⟩, hNot⟩, hPersistent⟩
    exact ⟨x, hx, KeyedSet.mem_keys.mpr ⟨x, hx', rfl⟩, hNot, hPersistent⟩
  · rintro ⟨x, hx, hKey, hNot, hPersistent⟩
    exact ⟨x, ⟨⟨hx, (KeyedSet.mem_iff_of_injOn hU ht (hs x hx)).mpr hKey⟩, hNot⟩, hPersistent⟩

theorem racesAt_build {select mergeable : EventLogIndex → List α} {eventLogs : List EventLogIndex}
    (hU : Set.InjOn key {x | ∃ e ∈ eventLogs, x ∈ select e}) {i j : Nat} {a b : EventLogIndex}
    (ha : eventLogs[i]? = some a) (hb : eventLogs[j]? = some b) :
    RacesAt persistent (InvertedIndex.build key select eventLogs) (InvertedIndex.build key mergeable eventLogs) i j ↔
      ∃ x ∈ select a, key x ∈ (select b).map key ∧
        ¬ (key x ∈ (mergeable a).map key ∧ key x ∈ (mergeable b).map key) ∧ persistent x = false := by
  have hMergeable : ∀ k, (i ∈ (InvertedIndex.build key mergeable eventLogs).positions k ∧
      j ∈ (InvertedIndex.build key mergeable eventLogs).positions k) ↔
        (k ∈ (mergeable a).map key ∧ k ∈ (mergeable b).map key) := by
    simp [InvertedIndex.mem_positions_build, ha, hb]
  have hDestroyed : ∀ k, (i ∈ (InvertedIndex.build key select eventLogs).positions k ↔ k ∈ (select a).map key) ∧
      (j ∈ (InvertedIndex.build key select eventLogs).positions k ↔ k ∈ (select b).map key) := by
    simp [InvertedIndex.mem_positions_build, ha, hb]
  simp only [RacesAt, hMergeable]
  constructor
  · rintro ⟨k, record, branches, hLookup, hi, hj, hPersistent, hNot⟩
    have hLeft := (hDestroyed k).1.mp (mem_positions_iff.mpr ⟨record, branches, hLookup, hi⟩)
    have hRight := (hDestroyed k).2.mp (mem_positions_iff.mpr ⟨record, branches, hLookup, hj⟩)
    obtain ⟨x, hx, rfl⟩ := List.mem_map.mp hLeft
    obtain ⟨hKey, hRecord⟩ := InvertedIndex.records_build select eventLogs _ _ _ hLookup
    obtain rfl := hU hRecord ⟨a, List.mem_of_getElem? ha, hx⟩ hKey
    exact ⟨record, hx, hRight, hNot, hPersistent⟩
  · rintro ⟨x, hx, hRight, hNot, hPersistent⟩
    obtain ⟨record, branches, hLookup, hi⟩ :=
      mem_positions_iff.mp ((hDestroyed (key x)).1.mpr (List.mem_map.mpr ⟨x, hx, rfl⟩))
    obtain ⟨record', branches', hLookup', hj⟩ := mem_positions_iff.mp ((hDestroyed (key x)).2.mpr hRight)
    obtain ⟨rfl, rfl⟩ := Prod.mk.inj (Option.some.inj (hLookup.symm.trans hLookup'))
    obtain ⟨hKey, hRecord⟩ := InvertedIndex.records_build select eventLogs _ _ _ hLookup
    obtain rfl := hU hRecord ⟨a, List.mem_of_getElem? ha, hx⟩ hKey
    exact ⟨_, _, _, hLookup, hi, hj, hPersistent, hNot⟩

end races

def CoherentProduces (eventLogs : List EventLogIndex) : Prop :=
  Set.InjOn Produce.hash {p | ∃ e ∈ eventLogs, p ∈ e.produces}

def ConsumesHaveChannels (eventLogs : List EventLogIndex) : Prop :=
  ∀ e ∈ eventLogs, ∀ c ∈ e.consumes, c.channelHashes ≠ []

theorem areConflicting_iff {a b : EventLogIndex} :
    areConflicting a b = true ↔
      (((∃ p, p ∈ (produceRaces a b).items) ∨ ∃ c, c ∈ (consumeRaces a b).items ∧ c.channelHashes ≠ []) ∨
        ((∃ ch, ch ∈ potentialComms a b) ∨ ∃ ch, ch ∈ potentialComms b a)) ∨
        (a.producesTouchingBaseJoins.isEmpty = false ∨ b.producesTouchingBaseJoins.isEmpty = false) := by
  have hRaces : (∃ ch, ch ∈ racesForSameIoEvent a b) ↔
      (∃ p, p ∈ (produceRaces a b).items) ∨ ∃ c, c ∈ (consumeRaces a b).items ∧ c.channelHashes ≠ [] := by
    simp only [racesForSameIoEvent, List.mem_toFinset, List.mem_append, List.mem_flatMap, List.mem_map]
    constructor
    · rintro ⟨ch, ⟨c, hc, hCh⟩ | ⟨p, hp, -⟩⟩
      · exact .inr ⟨c, hc, List.ne_nil_of_mem hCh⟩
      · exact .inl ⟨p, hp⟩
    · rintro (⟨p, hp⟩ | ⟨c, hc, hNe⟩)
      · exact ⟨p.channelHash, .inr ⟨p, hp, rfl⟩⟩
      · obtain ⟨ch, hCh⟩ := List.exists_mem_of_ne_nil _ hNe
        exact ⟨ch, .inl ⟨c, hc, hCh⟩⟩
  have hTouch : (∃ ch, ch ∈ produceTouchBaseJoin a b) ↔
      a.producesTouchingBaseJoins.isEmpty = false ∨ b.producesTouchingBaseJoins.isEmpty = false := by
    simp only [produceTouchBaseJoin, List.mem_toFinset, List.mem_map, List.mem_append, KeyedSet.isEmpty,
      List.isEmpty_eq_false_iff_exists_mem]
    constructor
    · rintro ⟨ch, p, hp | hp, -⟩
      · exact .inl ⟨p, hp⟩
      · exact .inr ⟨p, hp⟩
    · rintro (⟨p, hp⟩ | ⟨p, hp⟩)
      · exact ⟨_, p, .inl hp, rfl⟩
      · exact ⟨_, p, .inr hp, rfl⟩
  rw [areConflicting, decide_eq_true_iff, ← Finset.nonempty_iff_ne_empty, Finset.Nonempty, ← hRaces, ← hTouch]
  simp only [conflicts, Finset.mem_union, exists_or]

theorem mem_touchingBase {eventLogs : List EventLogIndex} {k : Nat} (he : eventLogs[k]? = some e) :
    k ∈ (eventLogs.zipIdx.filterMap fun (e, idx) =>
      if e.producesTouchingBaseJoins.isEmpty then none else some idx) ↔
      e.producesTouchingBaseJoins.isEmpty = false := by
  simp only [List.mem_filterMap, Prod.exists, List.mk_mem_zipIdx_iff_getElem?]
  constructor
  · rintro ⟨e', k', he', hSome⟩
    split_ifs at hSome with hEmpty
    obtain rfl := Option.some.inj hSome
    obtain rfl := Option.some.inj (he.symm.trans he')
    exact Bool.eq_false_of_not_eq_true hEmpty
  · intro hEmpty
    exact ⟨e, k, he, by simp [hEmpty]⟩

section conflicts

variable {eventLogs : List EventLogIndex} (hCoherent : CoherentProduces eventLogs)
  (hChannels : ConsumesHaveChannels eventLogs)

include hCoherent

theorem mem_survivingProduces {e : EventLogIndex} (he : e ∈ eventLogs) {p : Produce} :
    p ∈ survivingProduces e ↔ p ∈ (producesCreatedAndNotDestroyed e).items := by
  have hLinear : ∀ p ∈ (e.producesLinear.diff e.producesConsumed).items, p ∈ {p | ∃ e ∈ eventLogs, p ∈ e.produces} :=
    fun p hp => ⟨e, he, by simp [EventLogIndex.produces, (KeyedSet.mem_diff.mp hp).1]⟩
  have hPersistent : ∀ p ∈ e.producesPersistent.items, p ∈ {p | ∃ e ∈ eventLogs, p ∈ e.produces} :=
    fun p hp => ⟨e, he, by simp [EventLogIndex.produces, hp]⟩
  rw [producesCreatedAndNotDestroyed, KeyedSet.mem_diff, KeyedSet.mem_union_of_injOn hCoherent hLinear hPersistent,
    KeyedSet.mem_diff]
  simp only [survivingProduces, List.mem_append, List.mem_filter, Bool.and_eq_true, KeyedSet.not_contains_iff]
  tauto

variable {a b : EventLogIndex}

theorem exists_mem_potentialComms (ha : a ∈ eventLogs) :
    (∃ ch, ch ∈ potentialComms a b) ↔
      ∃ ch, ch ∈ (survivingProduces a).map Produce.channelHash ∧
        ch ∈ (survivingConsumes b).flatMap Consume.channelHashes := by
  simp only [potentialComms, List.mem_toFinset, List.mem_flatMap, List.mem_filterMap, List.mem_map,
    mem_survivingProduces hCoherent ha, mem_survivingConsumes, mem_consumeKeys]
  constructor
  · rintro ⟨ch, p, hp, c, hc, hSome⟩
    split_ifs at hSome with hMem
    exact ⟨p.channelHash, ⟨p, hp, rfl⟩, c, hc, hMem⟩
  · rintro ⟨ch, ⟨p, hp, rfl⟩, c, hc, hMem⟩
    exact ⟨p.channelHash, p, hp, c, hc, if_pos hMem⟩

theorem linked_produceRaces {i j : Nat} (ha : eventLogs[i]? = some a)
    (hb : eventLogs[j]? = some b) :
    Linked (racePairs Produce.persistent
        (InvertedIndex.build Produce.hash (fun e => e.producesConsumed.items) eventLogs)
        (InvertedIndex.build Produce.hash (fun e => e.producesMergeable.items) eventLogs)) i j ↔
      i ≠ j ∧ ∃ p, p ∈ (produceRaces a b).items := by
  have hConsumed : ∀ e ∈ eventLogs, ∀ p ∈ e.producesConsumed.items, p ∈ {p | ∃ e ∈ eventLogs, p ∈ e.produces} :=
    fun e he p hp => ⟨e, he, by simp [EventLogIndex.produces, hp]⟩
  have hInj : Set.InjOn Produce.hash {p | ∃ e ∈ eventLogs, p ∈ e.producesConsumed.items} :=
    hCoherent.mono fun p ⟨e, he, hp⟩ => hConsumed e he p hp
  rw [linked_racePairs, racesAt_build hInj ha hb, produceRaces,
    exists_race_iff hCoherent (hConsumed a (List.mem_of_getElem? ha)) (hConsumed b (List.mem_of_getElem? hb))]
  rfl

omit hCoherent in
include hChannels in
theorem linked_consumeRaces {i j : Nat} (ha : eventLogs[i]? = some a)
    (hb : eventLogs[j]? = some b) :
    Linked (racePairs Consume.persistent
        (InvertedIndex.build id (fun e => e.consumesProduced.items) eventLogs)
        (InvertedIndex.build id (fun e => e.consumesMergeable.items) eventLogs)) i j ↔
      i ≠ j ∧ ∃ c, c ∈ (consumeRaces a b).items ∧ c.channelHashes ≠ [] := by
  have hAll : (∃ c, c ∈ (consumeRaces a b).items ∧ c.channelHashes ≠ []) ↔ ∃ c, c ∈ (consumeRaces a b).items := by
    refine exists_congr fun c => and_iff_left_of_imp fun hc => ?_
    rw [consumeRaces, KeyedSet.mem_filter, KeyedSet.mem_diff] at hc
    obtain hMem | hMem := KeyedSet.inter_subset hc.1.1
    · exact hChannels a (List.mem_of_getElem? ha) c (by simp [EventLogIndex.consumes, hMem])
    · exact hChannels b (List.mem_of_getElem? hb) c (by simp [EventLogIndex.consumes, hMem])
  rw [hAll, linked_racePairs, racesAt_build (Set.injOn_id _) ha hb, consumeRaces,
    exists_race_iff (Set.injOn_id Set.univ) (fun _ _ => trivial) fun _ _ => trivial]
  rfl

include hChannels

theorem linked_conflictPairs (i j : Nat) (a b : EventLogIndex) (ha : eventLogs[i]? = some a)
    (hb : eventLogs[j]? = some b) :
    Linked (conflictPairs eventLogs) i j ↔ i ≠ j ∧ areConflicting a b = true := by
  have hi := (List.getElem?_eq_some_iff.mp ha).1
  have hj := (List.getElem?_eq_some_iff.mp hb).1
  rw [conflictPairs, linked_append, linked_append, linked_append, linked_produceRaces hCoherent ha hb,
    linked_consumeRaces hChannels ha hb, linked_meetingPairs, linked_globalPairs hi hj, mem_touchingBase ha, mem_touchingBase hb,
    meetsAt_build ha hb, meetsAt_build hb ha, areConflicting_iff,
    exists_mem_potentialComms hCoherent (List.mem_of_getElem? ha),
    exists_mem_potentialComms hCoherent (List.mem_of_getElem? hb)]
  simp only [List.map_id]
  rw [← and_or_left, ← and_or_left, ← and_or_left]

end conflicts

theorem computeConflictMapEventIndexed_expresses {R : Type} [DecidableEq R] (branches : List R)
    (eventLogs : List EventLogIndex) (hNodup : branches.Nodup) (hLength : branches.length = eventLogs.length)
    (hCoherent : CoherentProduces eventLogs) (hChannels : ConsumesHaveChannels eventLogs) :
    ∃ m, computeConflictMapEventIndexed branches eventLogs = some m ∧
      m.Expresses branches eventLogs fun a b => areConflicting a b = true := by
  refine ⟨_, if_neg (not_not.mpr hLength), ?_⟩
  exact relationMap_expresses hNodup hLength (linked_ite hLength (linked_conflictPairs hCoherent hChannels))

theorem computeConflictMapEventIndexed_takers_conflict :
    ∃ m, computeConflictMapEventIndexed [0, 1] [takesShared [3], takesShared [4]] = some m ∧ m.Related 0 1 := by
  have hShared : ∀ e ∈ [takesShared [3], takesShared [4]], ∀ p ∈ e.produces, p = sharedProduce := by decide
  obtain ⟨m, hMap, -, -, hRelated⟩ := computeConflictMapEventIndexed_expresses ([0, 1] : List Nat)
    [takesShared [3], takesShared [4]] (by decide) rfl
    (fun p ⟨e, he, hp⟩ q ⟨e', he', hq⟩ _ => (hShared e he p hp).trans (hShared e' he' q hq).symm)
    (by unfold ConsumesHaveChannels; decide)
  refine ⟨m, hMap, (hRelated 0 1).mpr ⟨by decide, takesShared [3], takesShared [4], ?_, ?_, by decide⟩⟩
  · exact List.mem_cons_self
  · exact List.mem_cons_of_mem _ List.mem_cons_self

end F1r3Node.Merging
