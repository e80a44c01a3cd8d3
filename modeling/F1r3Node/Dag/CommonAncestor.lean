import F1r3Node.Dag.Spine

/-! # The search for the common ancestor

The blocks of the search stay in their order, and every turn moves the first of them strictly down that order.
-/

namespace F1r3Node.Dag

open Lib

variable {a : BlockMetadata}

theorem precedes_iff {b : BlockMetadata} :
    precedes a b = true ↔ b.blockNumber < a.blockNumber ∨ a.blockNumber = b.blockNumber ∧ b.blockHash < a.blockHash :=
  decide_eq_true_iff

theorem precedes_irrefl (a : BlockMetadata) : precedes a a = false := by
  rw [← Bool.not_eq_true, precedes_iff]
  rintro (hLt | ⟨-, hLt⟩)
  · exact Int.lt_irrefl _ hLt
  · exact List.lt_irrefl _ hLt

theorem precedes_trans {b c : BlockMetadata} (hab : precedes a b = true) (hbc : precedes b c = true) :
    precedes a c = true := by
  rw [precedes_iff] at hab hbc ⊢
  rcases hab with hab | ⟨hab, hHash⟩
  · rcases hbc with hbc | ⟨hbc, -⟩
    · exact .inl (hbc.trans hab)
    · exact .inl (hbc ▸ hab)
  · rcases hbc with hbc | ⟨hbc, hHash'⟩
    · exact .inl (hab ▸ hbc)
    · exact .inr ⟨hab.trans hbc, List.lt_trans hHash' hHash⟩

theorem precedes_of_not {m : BlockMetadata} (hNe : ¬ (a.blockNumber = m.blockNumber ∧ a.blockHash = m.blockHash))
    (hNot : ¬ precedes m a = true) : precedes a m = true := by
  rw [precedes_iff] at hNot ⊢
  rw [not_or, not_and] at hNot
  obtain ⟨hNumber, hHash⟩ := hNot
  rcases Int.lt_or_eq_of_le (Int.not_lt.mp hNumber) with hLt | hEq
  · exact .inl hLt
  · have hLe := List.not_lt.mp (hHash hEq)
    refine .inr ⟨hEq.symm, ?_⟩
    by_contra hLt
    exact hNe ⟨hEq.symm, List.le_antisymm (List.not_lt.mp hLt) hLe⟩

variable {x : BlockMetadata} {current : List BlockMetadata}

theorem mem_of_mem_insertDescending {m : BlockMetadata}
    (h : x ∈ insertDescending m current) : x = m ∨ x ∈ current := by
  induction current with
  | nil => exact .inl (List.mem_singleton.mp h)
  | cons a rest ih =>
    rw [insertDescending] at h
    split at h
    · exact .inr h
    · split at h
      · exact List.mem_cons.mp h
      · rcases List.mem_cons.mp h with rfl | hRest
        · exact .inr List.mem_cons_self
        · exact (ih hRest).imp id (List.mem_cons_of_mem _)

theorem mem_insertDescending_of_mem (m : BlockMetadata)
    (h : x ∈ current) : x ∈ insertDescending m current := by
  induction current with
  | nil => cases h
  | cons a rest ih =>
    rw [insertDescending]
    split
    · exact h
    · split
      · exact List.mem_cons_of_mem _ h
      · rcases List.mem_cons.mp h with rfl | hRest
        · exact List.mem_cons_self
        · exact List.mem_cons_of_mem _ (ih hRest)

theorem pairwise_insertDescending (m : BlockMetadata)
    (h : current.Pairwise fun a b => precedes a b = true) :
    (insertDescending m current).Pairwise fun a b => precedes a b = true := by
  induction current with
  | nil => exact List.pairwise_singleton _ _
  | cons a rest ih =>
    obtain ⟨hFirst, hRest⟩ := List.pairwise_cons.mp h
    rw [insertDescending]
    split
    · exact h
    case isFalse hNe =>
      split
      case isTrue hBefore =>
        refine List.pairwise_cons.mpr ⟨List.forall_mem_cons.mpr ⟨hBefore, fun x hx => ?_⟩, h⟩
        exact precedes_trans hBefore (hFirst x hx)
      case isFalse hNot =>
        refine List.pairwise_cons.mpr ⟨fun x hx => ?_, ih hRest⟩
        rcases mem_of_mem_insertDescending hx with rfl | hx
        · exact precedes_of_not hNe hNot
        · exact hFirst x hx

theorem mem_of_mem_insertAllDescending {ms : List BlockMetadata}
    (h : x ∈ insertAllDescending ms current) : x ∈ ms ∨ x ∈ current := by
  induction ms generalizing current with
  | nil => exact .inr h
  | cons m ms ih =>
    rcases ih h with hMem | hMem
    · exact .inl (List.mem_cons_of_mem _ hMem)
    · rcases mem_of_mem_insertDescending hMem with rfl | hMem
      · exact .inl List.mem_cons_self
      · exact .inr hMem

theorem mem_insertAllDescending_of_mem (ms : List BlockMetadata)
    (h : x ∈ current) : x ∈ insertAllDescending ms current := by
  induction ms generalizing current with
  | nil => exact h
  | cons m ms ih => exact ih (mem_insertDescending_of_mem m h)

theorem pairwise_insertAllDescending (ms : List BlockMetadata)
    (h : current.Pairwise fun a b => precedes a b = true) :
    (insertAllDescending ms current).Pairwise fun a b => precedes a b = true := by
  induction ms generalizing current with
  | nil => exact h
  | cons m ms ih => exact ih (pairwise_insertDescending m h)

namespace KeyValueDagRepresentation

variable {dag : KeyValueDagRepresentation}

def countAfter (dag : KeyValueDagRepresentation) (m : BlockMetadata) : Nat := dag.records.countP (precedes m)

theorem countAfter_lt {a b : BlockMetadata} (hb : b ∈ dag.records) (h : precedes a b = true) :
    dag.countAfter b < dag.countAfter a :=
  countP_lt_countP (fun _ _ hc => precedes_trans h hc) hb h (precedes_irrefl b)

theorem FullyHeld.mapM_lookupUnsafe (hHeld : dag.FullyHeld) {m : BlockMetadata} (hm : m ∈ dag.records) :
    Returns (m.parents.mapM dag.lookupUnsafe) fun parents =>
      ∀ p ∈ parents, p ∈ dag.records ∧ p.blockNumber < m.blockNumber := by
  refine Returns.mapM fun parent hParent => ?_
  obtain ⟨p, hp⟩ := hHeld m.blockHash m (mem_records.mp hm) parent hParent
  refine ⟨p, by rw [lookupUnsafe, hp], mem_records_of_lookup hp, ?_⟩
  exact dag.parents_lower m.blockHash m (mem_records.mp hm) parent hParent p hp

theorem lucaLoop_succ (floor head next : BlockMetadata) (rest : List BlockMetadata) (fuel : Nat) :
    dag.lucaLoop floor (fuel + 1) (head :: next :: rest) =
      if head.blockNumber ≤ floor.blockNumber then .ok floor
      else head.parents.mapM dag.lookupUnsafe >>= fun parents =>
        dag.lucaLoop floor fuel (insertAllDescending parents (next :: rest)) :=
  rfl

theorem FullyHeld.lucaLoop_returns (hHeld : dag.FullyHeld) {floor : BlockMetadata} (hFloor : floor ∈ dag.records)
    {fuel : Nat} {head : BlockMetadata} {tail : List BlockMetadata} (hMem : ∀ m ∈ head :: tail, m ∈ dag.records)
    (hSorted : (head :: tail).Pairwise fun a b => precedes a b = true) (hFuel : dag.countAfter head ≤ fuel) :
    Returns (dag.lucaLoop floor fuel (head :: tail)) (· ∈ dag.records) := by
  induction fuel generalizing head tail with
  | zero =>
    cases tail with
    | nil => exact ⟨head, rfl, hMem head List.mem_cons_self⟩
    | cons next rest =>
      have hNext := countAfter_lt (hMem next (List.mem_cons_of_mem _ List.mem_cons_self))
        ((List.pairwise_cons.mp hSorted).1 next List.mem_cons_self)
      omega
  | succ fuel ih =>
    cases tail with
    | nil => exact ⟨head, rfl, hMem head List.mem_cons_self⟩
    | cons next rest =>
      obtain ⟨hFirst, hRest⟩ := List.pairwise_cons.mp hSorted
      rw [lucaLoop_succ]
      split
      · exact ⟨floor, rfl, hFloor⟩
      · refine (hHeld.mapM_lookupUnsafe (hMem head List.mem_cons_self)).bind fun parents hParents => ?_
        have hAfter : ∀ m ∈ insertAllDescending parents (next :: rest), m ∈ dag.records ∧ precedes head m = true := by
          intro m hm
          rcases mem_of_mem_insertAllDescending hm with hm | hm
          · exact ⟨(hParents m hm).1, precedes_iff.mpr (.inl (hParents m hm).2)⟩
          · exact ⟨hMem m (List.mem_cons_of_mem _ hm), hFirst m hm⟩
        have hSorted' := pairwise_insertAllDescending parents hRest
        have hNext := mem_insertAllDescending_of_mem parents (List.mem_cons_self : next ∈ next :: rest)
        cases hSet : insertAllDescending parents (next :: rest) with
        | nil =>
          rw [hSet] at hNext
          cases hNext
        | cons head' tail' =>
          rw [hSet] at hAfter hSorted'
          obtain ⟨hRecord, hBefore⟩ := hAfter head' List.mem_cons_self
          have hLt := countAfter_lt hRecord hBefore
          exact ih (fun m hm => (hAfter m hm).1) hSorted' (by omega)

theorem FullyHeld.luca_returns (hHeld : dag.FullyHeld) {floor : BlockMetadata} (hFloor : floor ∈ dag.records)
    {blocks : List BlockMetadata} (hMem : ∀ m ∈ blocks, m ∈ dag.records) (hNe : blocks ≠ []) :
    Returns (dag.lowestUniversalCommonAncestorMany blocks floor) (· ∈ dag.records) := by
  match blocks with
  | [] => exact absurd rfl hNe
  | [block] => exact ⟨block, rfl, hMem block List.mem_cons_self⟩
  | a :: b :: rest =>
    have hRecords : ∀ m ∈ insertAllDescending (a :: b :: rest) [], m ∈ dag.records := by
      intro m hm
      rcases mem_of_mem_insertAllDescending hm with hm | hm
      · exact hMem m hm
      · cases hm
    have hSorted : (insertAllDescending (a :: b :: rest) []).Pairwise fun a b => precedes a b = true :=
      pairwise_insertAllDescending _ .nil
    have hFirst : a ∈ insertAllDescending (a :: b :: rest) [] :=
      mem_insertAllDescending_of_mem (b :: rest) (List.mem_singleton.mpr rfl)
    rw [lowestUniversalCommonAncestorMany]
    · cases hSet : insertAllDescending (a :: b :: rest) [] with
      | nil =>
        rw [hSet] at hFirst
        cases hFirst
      | cons head tail =>
        rw [hSet] at hRecords hSorted
        exact hHeld.lucaLoop_returns hFloor hRecords hSorted List.countP_le_length
    · rintro ⟨⟩
    · rintro block ⟨⟩

end KeyValueDagRepresentation

end F1r3Node.Dag
