import F1r3Node.Finality.MaximumClique

/-! # The maximum clique in every hash order

Each call of the search iterates its two sets in an order of their own. Whatever the orders are, the
result is the largest weight of a clique.
-/

namespace F1r3Node.Finality

namespace Clique

variable {A : Type} [DecidableEq A]

/-- The order in which a call iterates a set. A call is known by the vertices that were taken on the way to it. -/
structure HashOrder (A : Type) where
  iterate : List A → List A → List A
  perm : ∀ taken members, (iterate taken members).Perm members

variable (order : HashOrder A) (adj : A → A → Bool) (weight : A → Int)

def expandMaxWeightIn : Nat → List A → Int → List A → List A → Int → Int
  | 0, _, _, _, _, bestWeight => bestWeight
  | fuel + 1, taken, ansWeight, p, x, bestWeight =>
    expandStep adj weight
      (fun p x best v => expandMaxWeightIn fuel (v :: taken) (ansWeight + weight v) p x best) taken.length ansWeight
      (order.iterate taken p) (order.iterate taken x) bestWeight

def findMaximumCliqueByWeightIn (edges : List (A × A)) (weights : List (A × Int)) : Int :=
  expandMaxWeightIn order (adjacent edges) (weightIn weights) ((nodes edges).length + 1) [] 0 (nodes edges) []
    ((weights.map Prod.snd).max?.getD 0)

def HashOrder.asListed : HashOrder A := ⟨fun _ members => members, fun _ members => .refl members⟩

variable {order adj weight}

omit [DecidableEq A] in
theorem HashOrder.mem_iterate {taken members : List A} {a : A} : a ∈ order.iterate taken members ↔ a ∈ members :=
  (order.perm taken members).mem_iff

omit [DecidableEq A] in
theorem Processed.reorder {ansWeight bestWeight : Int} {p x : List A} (taken : List A)
    (h : Processed adj weight ansWeight p x bestWeight) :
    Processed adj weight ansWeight (order.iterate taken p) (order.iterate taken x) bestWeight := by
  intro v hv clique hClique hSub hAdj
  refine h v (HashOrder.mem_iterate.mp hv) clique hClique (fun a ha => ?_) hAdj
  exact (hSub a ha).imp HashOrder.mem_iterate.mp HashOrder.mem_iterate.mp

theorem expandMaxWeightIn_spec (hSymm : ∀ a b, adj a b = adj b a) (hIrrefl : ∀ a, adj a a = false)
    (hNonneg : ∀ a, 0 ≤ weight a) {fuel : Nat} {taken : List A} {ansWeight bestWeight : Int} {p x : List A}
    (hNodup : p.Nodup) (hFuel : p.length < fuel) (hStart : taken = [] → ansWeight ≤ bestWeight)
    (hProcessed : Processed adj weight ansWeight p x bestWeight) :
    Improves adj weight ansWeight p x bestWeight
      (expandMaxWeightIn order adj weight fuel taken ansWeight p x bestWeight) := by
  induction fuel generalizing taken ansWeight bestWeight p x with
  | zero => omega
  | succ fuel ih =>
    have hPerm := order.perm taken p
    have hLength := hPerm.length_eq
    have hStep : Improves adj weight ansWeight (order.iterate taken p) (order.iterate taken x) bestWeight
        (expandMaxWeightIn order adj weight (fuel + 1) taken ansWeight p x bestWeight) := by
      rw [expandMaxWeightIn]
      refine expandStep_spec hSymm hIrrefl hNonneg (hPerm.nodup_iff.mpr hNodup) ?_
        (fun hNone => hStart (List.length_eq_zero_iff.mp hNone)) (hProcessed.reorder taken)
      intro p' x' best v hNodup' hLess hProcessed'
      exact ih hNodup' (by omega) (fun hNil => absurd hNil (List.cons_ne_nil _ _)) hProcessed'
    refine ⟨hStep.1, fun clique hClique hSub => hStep.2 clique hClique fun a ha => ?_⟩
    exact (hSub a ha).imp HashOrder.mem_iterate.mpr HashOrder.mem_iterate.mpr

theorem expandMaxWeightIn_attained (hSymm : ∀ a b, adj a b = adj b a) (hIrrefl : ∀ a, adj a a = false) (fuel : Nat) :
    ∀ (taken : List A) (ansWeight : Int) (p x : List A) (bestWeight : Int), Attained adj weight ansWeight p bestWeight
      (expandMaxWeightIn order adj weight fuel taken ansWeight p x bestWeight) := by
  induction fuel with
  | zero => exact fun _ _ _ _ _ => .inl rfl
  | succ fuel ih =>
    intro taken ansWeight p x bestWeight
    have hStep : Attained adj weight ansWeight (order.iterate taken p) bestWeight
        (expandMaxWeightIn order adj weight (fuel + 1) taken ansWeight p x bestWeight) := by
      rw [expandMaxWeightIn]
      exact expandStep_attained hSymm hIrrefl fun p x best v => ih _ _ _ _ _
    rcases hStep with hBest | ⟨clique, hClique, hSub, hValue⟩
    · exact .inl hBest
    · exact .inr ⟨clique, hClique, fun a ha => HashOrder.mem_iterate.mp (hSub a ha), hValue⟩

def cliqueWeights (edges : List (A × A)) (weights : List (A × Int)) : Set Int :=
  { value | ∃ clique : Finset A, IsClique (adjacent edges) clique ∧
    (∀ a ∈ clique, a ∈ nodes edges ∨ a ∈ weights.map Prod.fst) ∧ value = ∑ a ∈ clique, weightIn weights a }

theorem IsClique.eq_singleton {edges : List (A × A)} {clique : Finset A} (h : IsClique (adjacent edges) clique) {v : A}
    (hv : v ∈ clique) (hAlone : v ∉ nodes edges) : clique = {v} := by
  apply Finset.eq_singleton_iff_unique_mem.mpr
  refine ⟨hv, fun a ha => ?_⟩
  by_contra hne
  have hAdjacent := of_decide_eq_true (h v hv a ha (Ne.symm hne))
  exact hAlone (mem_nodes.mpr ⟨a, hAdjacent.2⟩)

variable (order)

/-- The result is the largest weight of a clique, in every order of the sets. -/
theorem isGreatest_findMaximumCliqueByWeightIn (edges : List (A × A)) {weights : List (A × Int)}
    (hKeys : (weights.map Prod.fst).Nodup) (hNonneg : ∀ entry ∈ weights, 0 ≤ entry.2) :
    IsGreatest (cliqueWeights edges weights) (findMaximumCliqueByWeightIn order edges weights) := by
  have hStart := firstBest_spec hNonneg
  have hEmpty : Processed (adjacent edges) (weightIn weights) 0 (nodes edges) []
      ((weights.map Prod.snd).max?.getD 0) := fun v hv => absurd hv List.not_mem_nil
  obtain ⟨hMono, hBound⟩ : Improves (adjacent edges) (weightIn weights) 0 (nodes edges) [] _
      (findMaximumCliqueByWeightIn order edges weights) :=
    expandMaxWeightIn_spec (adjacent_comm edges) (adjacent_self edges) (weightIn_nonneg hNonneg) (List.nodup_dedup _)
      (Nat.lt_succ_self _) (fun _ => hStart.1) hEmpty
  have hAttained : Attained (adjacent edges) (weightIn weights) 0 (nodes edges) ((weights.map Prod.snd).max?.getD 0)
      (findMaximumCliqueByWeightIn order edges weights) :=
    expandMaxWeightIn_attained (adjacent_comm edges) (adjacent_self edges) _ _ _ _ _ _
  constructor
  · rcases hAttained with hFirst | ⟨clique, hClique, hSub, hEq⟩
    · rcases firstBest_eq weights with hZero | ⟨entry, hEntry, hEq⟩
      · refine ⟨∅, by simp [IsClique], by simp, ?_⟩
        rw [hFirst, hZero, Finset.sum_empty]
      · refine ⟨{entry.1}, by simp [IsClique], fun a ha => ?_, ?_⟩
        · rw [Finset.mem_singleton.mp ha]
          exact .inr (List.mem_map.mpr ⟨entry, hEntry, rfl⟩)
        · rw [hFirst, hEq, Finset.sum_singleton, weightIn_of_mem hKeys hEntry]
    · rw [Int.zero_add] at hEq
      exact ⟨clique, hClique, fun a ha => .inl (hSub a ha), hEq⟩
  · rintro value ⟨clique, hClique, hSub, rfl⟩
    by_cases hAlone : ∃ v ∈ clique, v ∉ nodes edges
    · obtain ⟨v, hv, hNot⟩ := hAlone
      obtain ⟨entry, hEntry, rfl⟩ := List.mem_map.mp ((hSub v hv).resolve_left hNot)
      rw [hClique.eq_singleton hv hNot, Finset.sum_singleton, weightIn_of_mem hKeys hEntry]
      exact (hStart.2 entry hEntry).trans hMono
    · have hLe := hBound clique hClique fun a ha => .inl (by
        by_contra hNot
        exact hAlone ⟨a, ha, hNot⟩)
      rwa [Int.zero_add] at hLe

def HashOrder.reversed {A : Type} : HashOrder A :=
  ⟨fun _ members => members.reverse, fun _ members => members.reverse_perm⟩

/-- A triangle, with a heavier vertex beside it, an edge out of it and a loop. -/
theorem isGreatest_triangle :
    findMaximumCliqueByWeightIn .reversed [(1, 2), (2, 3), (3, 1), (3, 4), (5, 5)]
        [(1, 2), (2, 3), (3, 4), (6, 8)] = 9 ∧
      IsGreatest (cliqueWeights [(1, 2), (2, 3), (3, 1), (3, 4), (5, 5)] [(1, 2), (2, 3), (3, 4), (6, 8)]) 9 :=
  ⟨by decide, isGreatest_findMaximumCliqueByWeightIn .reversed [(1, 2), (2, 3), (3, 1), (3, 4), (5, 5)] (by decide)
    (by decide)⟩

end Clique

end F1r3Node.Finality
