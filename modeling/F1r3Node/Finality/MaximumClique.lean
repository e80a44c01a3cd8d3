import Mathlib.Algebra.BigOperators.Fin
import Mathlib.Algebra.Order.BigOperators.Group.Finset

/-! # The weight of a maximum clique

A hash set that is iterated stands as a list in any order; the result does not depend on it.
-/

namespace F1r3Node.Finality

variable {A : Type} [DecidableEq A]

namespace Clique

def adjacent (edges : List (A × A)) (a b : A) : Bool := a ≠ b ∧ ((a, b) ∈ edges ∨ (b, a) ∈ edges)

def nodes (edges : List (A × A)) : List A := (edges.flatMap fun edge => [edge.1, edge.2]).dedup

variable (adj : A → A → Bool) (weight : A → Int)

def betterPivot (p : List A) (best : Option (A × Nat)) (vertex : A) : Option (A × Nat) :=
  let count := p.countP (adj vertex)
  if best.all (·.2 ≤ count) then some (vertex, count) else best

def choosePivot (p x : List A) : Option A := ((p ++ x).foldl (betterPivot adj p) none).map Prod.fst

def expandMaxWeight : Nat → Nat → Int → List A → List A → Int → Int
  | 0, _, _, _, _, bestWeight => bestWeight
  | fuel + 1, depth, ansWeight, p, x, bestWeight =>
    if p.isEmpty ∧ x.isEmpty then if 0 < depth ∧ bestWeight < ansWeight then ansWeight else bestWeight
    else if p.isEmpty then bestWeight
    else if ansWeight + (p.map weight).sum ≤ bestWeight then bestWeight
    else
      match choosePivot adj p x with
      | none => bestWeight
      | some pivot =>
        let final := (p.filter fun vertex => !adj pivot vertex).foldl
          (fun (state : List A × List A × Int) vertex =>
            (state.1.filter (· ≠ vertex), vertex :: state.2.1,
              expandMaxWeight fuel (depth + 1) (ansWeight + weight vertex) (state.1.filter (adj vertex))
                (state.2.1.filter (adj vertex)) state.2.2)) (p, x, bestWeight)
        final.2.2

def expandStep (expand : List A → List A → Int → A → Int) (depth : Nat) (ansWeight : Int) (p x : List A)
    (bestWeight : Int) : Int :=
  if p.isEmpty ∧ x.isEmpty then if 0 < depth ∧ bestWeight < ansWeight then ansWeight else bestWeight
  else if p.isEmpty then bestWeight
  else if ansWeight + (p.map weight).sum ≤ bestWeight then bestWeight
  else
    match choosePivot adj p x with
    | none => bestWeight
    | some pivot =>
      ((p.filter fun vertex => !adj pivot vertex).foldl
        (fun (state : List A × List A × Int) vertex =>
          (state.1.filter (· ≠ vertex), vertex :: state.2.1,
            expand (state.1.filter (adj vertex)) (state.2.1.filter (adj vertex)) state.2.2 vertex))
        (p, x, bestWeight)).2.2

theorem expandMaxWeight_succ (fuel depth : Nat) (ansWeight : Int) (p x : List A) (bestWeight : Int) :
    expandMaxWeight adj weight (fuel + 1) depth ansWeight p x bestWeight =
      expandStep adj weight
        (fun p x best v => expandMaxWeight adj weight fuel (depth + 1) (ansWeight + weight v) p x best) depth ansWeight
        p x bestWeight :=
  rfl

def weightIn (weights : List (A × Int)) (vertex : A) : Int :=
  ((weights.find? (·.1 = vertex)).map Prod.snd).getD 0

def findMaximumCliqueByWeight (edges : List (A × A)) (weights : List (A × Int)) : Int :=
  expandMaxWeight (adjacent edges) (weightIn weights) ((nodes edges).length + 1) 0 0 (nodes edges) []
    ((weights.map Prod.snd).max?.getD 0)

def IsClique (clique : Finset A) : Prop := ∀ a ∈ clique, ∀ b ∈ clique, a ≠ b → adj a b = true

variable {adj weight}

variable {clique : Finset A}

omit [DecidableEq A] in
theorem IsClique.mono {clique' : Finset A} (h : IsClique adj clique) (hSub : clique' ⊆ clique) :
    IsClique adj clique' :=
  fun a ha b hb => h a (hSub ha) b (hSub hb)

variable {v : A}

theorem IsClique.insert (hSymm : ∀ a b, adj a b = adj b a) (h : IsClique adj clique)
    (hv : ∀ a ∈ clique, adj v a = true) : IsClique adj (insert v clique) := by
  intro a ha b hb hNe
  rcases Finset.mem_insert.mp ha with rfl | ha'
  · rcases Finset.mem_insert.mp hb with rfl | hb'
    · exact absurd rfl hNe
    · exact hv b hb'
  · rcases Finset.mem_insert.mp hb with rfl | hb'
    · rw [hSymm]
      exact hv a ha'
    · exact h a ha' b hb' hNe

variable {p x : List A}

omit [DecidableEq A] in
theorem choosePivot_mem {pivot : A} (h : choosePivot adj p x = some pivot) : pivot ∈ p ++ x := by
  obtain ⟨⟨vertex, count⟩, hFold, rfl⟩ := Option.map_eq_some_iff.mp h
  have hAll : ∀ (list : List A) (best : Option (A × Nat)), (∀ found ∈ best, found.1 ∈ p ++ x) →
      (∀ v ∈ list, v ∈ p ++ x) → ∀ found ∈ list.foldl (betterPivot adj p) best, found.1 ∈ p ++ x := by
    intro list
    induction list with
    | nil => exact fun best hBest _ => hBest
    | cons v list ih =>
      intro best hBest hList
      obtain ⟨hv, hList⟩ := List.forall_mem_cons.mp hList
      refine ih _ (fun found hFound => ?_) hList
      rw [betterPivot] at hFound
      split at hFound
      · rw [← Option.some.inj hFound]
        exact hv
      · exact hBest found hFound
  exact hAll (p ++ x) none (by simp) (fun v hv => hv) _ hFold

omit [DecidableEq A] in
theorem exists_choosePivot (hNe : p ≠ []) : ∃ pivot, choosePivot adj p x = some pivot := by
  have hSome : ∀ (list : List A) (best : Option (A × Nat)), best.isSome →
      (list.foldl (betterPivot adj p) best).isSome := by
    intro list
    induction list with
    | nil => exact fun best hBest => hBest
    | cons v list ih =>
      intro best hBest
      refine ih _ ?_
      rw [betterPivot]
      split
      · rfl
      · exact hBest
  cases p with
  | nil => exact absurd rfl hNe
  | cons v p =>
    have hFold := hSome (p ++ x) (betterPivot adj (v :: p) none v) rfl
    rw [choosePivot, List.cons_append, List.foldl_cons]
    obtain ⟨best, hBest⟩ := Option.isSome_iff_exists.mp hFold
    exact ⟨best.1, by rw [hBest]; rfl⟩

variable (adj weight) in
def Processed (ansWeight : Int) (p x : List A) (bestWeight : Int) : Prop :=
  ∀ v ∈ x, ∀ clique : Finset A, IsClique adj clique → (∀ a ∈ clique, a ∈ p ∨ a ∈ x) →
    (∀ a ∈ clique, adj v a = true) → ansWeight + weight v + ∑ a ∈ clique, weight a ≤ bestWeight

variable {ansWeight bestWeight : Int}

theorem Processed.le_of_mem
    (h : Processed adj weight ansWeight p x bestWeight) (hClique : IsClique adj clique)
    (hSub : ∀ a ∈ clique, a ∈ p ∨ a ∈ x) (hv : v ∈ clique) (hx : v ∈ x) :
    ansWeight + ∑ a ∈ clique, weight a ≤ bestWeight := by
  have hErase : ∀ a ∈ clique.erase v, adj v a = true := fun a ha =>
    hClique v hv a (Finset.mem_of_mem_erase ha) (Finset.ne_of_mem_erase ha).symm
  have hLe := h v hx (clique.erase v) (hClique.mono (Finset.erase_subset v clique))
    (fun a ha => hSub a (Finset.mem_of_mem_erase ha)) hErase
  rw [← Finset.add_sum_erase clique weight hv]
  omega

theorem Processed.branch (hSymm : ∀ a b, adj a b = adj b a)
    (h : Processed adj weight ansWeight p x bestWeight) (hIrrefl : adj v v = false) (hv : v ∈ p) :
    Processed adj weight (ansWeight + weight v) (p.filter (adj v)) (x.filter (adj v)) bestWeight := by
  intro u hu clique hClique hSub hAdj
  obtain ⟨hu, hvu⟩ := List.mem_filter.mp hu
  have hNeighbours : ∀ a ∈ clique, adj v a = true := by
    intro a ha
    rcases hSub a ha with hp | hx
    · exact (List.mem_filter.mp hp).2
    · exact (List.mem_filter.mp hx).2
  have hNew : v ∉ clique := fun hMem => by
    rw [hNeighbours v hMem] at hIrrefl
    cases hIrrefl
  have hLe := h u hu (insert v clique) (hClique.insert hSymm hNeighbours) ?_ ?_
  · rw [Finset.sum_insert hNew] at hLe
    omega
  · intro a ha
    rcases Finset.mem_insert.mp ha with rfl | ha
    · exact .inl hv
    · rcases hSub a ha with hp | hx
      · exact .inl (List.mem_of_mem_filter hp)
      · exact .inr (List.mem_of_mem_filter hx)
  · intro a ha
    rcases Finset.mem_insert.mp ha with rfl | ha
    · rw [hSymm]
      exact hvu
    · exact hAdj a ha

theorem foldl_expand_spec (hSymm : ∀ a b, adj a b = adj b a) (hIrrefl : ∀ a, adj a a = false)
    (expand : List A → List A → Int → A → Int) {size : Nat}
    (hExpand : ∀ p x best v, p.Nodup → p.length < size →
      Processed adj weight (ansWeight + weight v) p x best → best ≤ expand p x best v ∧
        ∀ clique, IsClique adj clique → (∀ a ∈ clique, a ∈ p ∨ a ∈ x) →
          ansWeight + weight v + ∑ a ∈ clique, weight a ≤ expand p x best v)
    {candidates : List A} {best : Int} (hNodup : p.Nodup) (hSize : p.length ≤ size)
    (hCandidates : ∀ v ∈ candidates, v ∈ p) (hDistinct : candidates.Nodup)
    (hProcessed : Processed adj weight ansWeight p x best) :
    ∃ best', (candidates.foldl (fun (state : List A × List A × Int) vertex =>
        (state.1.filter (· ≠ vertex), vertex :: state.2.1,
          expand (state.1.filter (adj vertex)) (state.2.1.filter (adj vertex)) state.2.2 vertex)) (p, x, best)) =
      (p.filter (· ∉ candidates), candidates.reverse ++ x, best') ∧ best ≤ best' ∧
      Processed adj weight ansWeight (p.filter (· ∉ candidates)) (candidates.reverse ++ x) best' := by
  induction candidates generalizing p x best with
  | nil =>
    have hAll : p.filter (· ∉ ([] : List A)) = p := List.filter_eq_self.mpr fun a _ => by simp
    rw [hAll]
    exact ⟨best, rfl, Int.le_refl _, hProcessed⟩
  | cons v candidates ih =>
    obtain ⟨hv, hCandidates⟩ := List.forall_mem_cons.mp hCandidates
    obtain ⟨hNew, hDistinct⟩ := List.nodup_cons.mp hDistinct
    have hShorter : (p.filter (adj v)).length < size := by
      refine Nat.lt_of_lt_of_le (List.length_filter_lt_length_iff_exists.mpr ⟨v, hv, ?_⟩) hSize
      rw [hIrrefl]
      exact Bool.false_ne_true
    obtain ⟨hMono, hBound⟩ := hExpand (p.filter (adj v)) (x.filter (adj v)) best v (hNodup.filter _) hShorter
      (hProcessed.branch hSymm (hIrrefl v) hv)
    have hUnion : ∀ a, (a ∈ p.filter (· ≠ v) ∨ a ∈ v :: x) → a ∈ p ∨ a ∈ x := by
      rintro a (ha | ha)
      · exact .inl (List.mem_of_mem_filter ha)
      · rcases List.mem_cons.mp ha with rfl | ha
        · exact .inl hv
        · exact .inr ha
    -- the candidate is done with: all that goes through it was seen in its branch
    have hProcessed' : Processed adj weight ansWeight (p.filter (· ≠ v)) (v :: x)
        (expand (p.filter (adj v)) (x.filter (adj v)) best v) := by
      intro u hu clique hClique hSub hAdj
      rcases List.mem_cons.mp hu with rfl | hu
      · refine hBound clique hClique fun a ha => ?_
        exact (hUnion a (hSub a ha)).imp (fun hp => List.mem_filter.mpr ⟨hp, hAdj a ha⟩)
          fun hx => List.mem_filter.mpr ⟨hx, hAdj a ha⟩
      · exact (hProcessed u hu clique hClique (fun a ha => hUnion a (hSub a ha)) hAdj).trans hMono
    have hSub : ∀ u ∈ candidates, u ∈ p.filter (· ≠ v) := by
      intro u hu
      refine List.mem_filter.mpr ⟨hCandidates u hu, decide_eq_true ?_⟩
      rintro rfl
      exact hNew hu
    obtain ⟨best', hFold, hLe, hEnd⟩ := ih (hNodup.filter _) ((List.length_filter_le _ _).trans hSize) hSub hDistinct
      hProcessed'
    have hFilter : (p.filter (· ≠ v)).filter (· ∉ candidates) = p.filter (· ∉ v :: candidates) := by
      rw [List.filter_filter]
      refine List.filter_congr fun a _ => ?_
      rw [← Bool.decide_and, decide_eq_decide, List.mem_cons, not_or, and_comm]
    rw [hFilter] at hFold hEnd
    refine ⟨best', ?_, hMono.trans hLe, ?_⟩
    · rw [List.foldl_cons, hFold, List.reverse_cons, List.append_assoc]
      rfl
    · rw [List.reverse_cons, List.append_assoc]
      exact hEnd

/-- What a call returns is not worse than the best before it, nor than what was taken with any clique of its vertices. -/
def Improves (adj : A → A → Bool) (weight : A → Int) (ansWeight : Int) (p x : List A) (bestWeight value : Int) : Prop :=
  bestWeight ≤ value ∧ ∀ clique, IsClique adj clique → (∀ a ∈ clique, a ∈ p ∨ a ∈ x) →
    ansWeight + ∑ a ∈ clique, weight a ≤ value

variable {depth : Nat}

variable {expand : List A → List A → Int → A → Int}

theorem expandStep_spec (hSymm : ∀ a b, adj a b = adj b a) (hIrrefl : ∀ a, adj a a = false)
    (hNonneg : ∀ a, 0 ≤ weight a)
    (hNodup : p.Nodup)
    (hExpand : ∀ p' x' best v, p'.Nodup → p'.length < p.length →
      Processed adj weight (ansWeight + weight v) p' x' best →
        Improves adj weight (ansWeight + weight v) p' x' best (expand p' x' best v))
    (hStart : depth = 0 → ansWeight ≤ bestWeight) (hProcessed : Processed adj weight ansWeight p x bestWeight) :
    Improves adj weight ansWeight p x bestWeight (expandStep adj weight expand depth ansWeight p x bestWeight) := by
  unfold Improves at hExpand ⊢
  rw [expandStep]
  split
  case isTrue hLeaf =>
    -- a maximal clique, or nothing at all
    rw [List.isEmpty_iff, List.isEmpty_iff] at hLeaf
    obtain ⟨rfl, rfl⟩ := hLeaf
    have hEmpty : ∀ clique : Finset A, (∀ a ∈ clique, a ∈ ([] : List A) ∨ a ∈ ([] : List A)) →
        ∑ a ∈ clique, weight a = 0 := by
      intro clique hSub
      have hNil : clique = ∅ := Finset.eq_empty_of_forall_notMem fun a ha => by simpa using hSub a ha
      rw [hNil, Finset.sum_empty]
    have hLe : bestWeight ≤ (if 0 < depth ∧ bestWeight < ansWeight then ansWeight else bestWeight) ∧
        ansWeight ≤ if 0 < depth ∧ bestWeight < ansWeight then ansWeight else bestWeight := by
      split <;> omega
    refine ⟨hLe.1, fun clique _ hSub => ?_⟩
    rw [hEmpty clique hSub]
    omega
  case isFalse hLeaf =>
    split
    case isTrue hNone =>
      -- every clique here goes through a vertex that is done with
      rw [List.isEmpty_iff] at hNone
      subst hNone
      refine ⟨Int.le_refl _, fun clique hClique hSub => ?_⟩
      have hx : ∀ a ∈ clique, a ∈ x := fun a ha => (hSub a ha).resolve_left List.not_mem_nil
      rcases clique.eq_empty_or_nonempty with rfl | ⟨v, hv⟩
      · have hNe : x ≠ [] := by
          rintro rfl
          exact hLeaf ⟨rfl, rfl⟩
        obtain ⟨v, hv⟩ := List.exists_mem_of_ne_nil x hNe
        have hLe := hProcessed v hv ∅ (by simp [IsClique]) (by simp) (by simp)
        have hWeight := hNonneg v
        rw [Finset.sum_empty] at hLe ⊢
        omega
      · exact hProcessed.le_of_mem hClique hSub hv (hx v hv)
    case isFalse hSome =>
      split
      case isTrue hBound =>
        refine ⟨Int.le_refl _, fun clique hClique hSub => ?_⟩
        by_cases hx : ∃ v ∈ clique, v ∈ x
        · obtain ⟨v, hv, hx⟩ := hx
          exact hProcessed.le_of_mem hClique hSub hv hx
        · have hp : clique ⊆ p.toFinset := fun a ha =>
            List.mem_toFinset.mpr ((hSub a ha).resolve_right fun hax => hx ⟨a, ha, hax⟩)
          have hSum : ∑ a ∈ clique, weight a ≤ ∑ a ∈ p.toFinset, weight a :=
            Finset.sum_le_sum_of_subset_of_nonneg hp fun a _ _ => hNonneg a
          rw [List.sum_toFinset weight hNodup] at hSum
          omega
      case isFalse =>
        have hNe : p ≠ [] := by rwa [List.isEmpty_iff] at hSome
        obtain ⟨pivot, hPivot⟩ : ∃ pivot, choosePivot adj p x = some pivot := exists_choosePivot hNe
        rw [hPivot]
        dsimp only
        have hCandidates : ∀ v, v ∈ p.filter (fun vertex => !adj pivot vertex) ↔ v ∈ p ∧ adj pivot v = false := by
          intro v
          rw [List.mem_filter, Bool.not_eq_true']
        obtain ⟨best', hFold, hMono, hEnd⟩ := foldl_expand_spec hSymm hIrrefl
          expand hExpand hNodup (Nat.le_refl _) (fun v hv => ((hCandidates v).mp hv).1) (hNodup.filter _) hProcessed
        rw [hFold]
        dsimp only
        refine ⟨hMono, fun clique hClique hSub => ?_⟩
        have hUnion : ∀ a ∈ clique, a ∈ p.filter (· ∉ p.filter fun vertex => !adj pivot vertex) ∨
            a ∈ (p.filter fun vertex => !adj pivot vertex).reverse ++ x := by
          intro a ha
          rw [List.mem_append, List.mem_reverse, List.mem_filter, decide_eq_true_iff]
          by_cases hDone : a ∈ p.filter fun vertex => !adj pivot vertex
          · exact .inr (.inl hDone)
          · exact (hSub a ha).imp (fun hp => ⟨hp, hDone⟩) .inr
        by_cases hx : ∃ v ∈ clique, v ∈ (p.filter fun vertex => !adj pivot vertex).reverse ++ x
        · obtain ⟨v, hv, hx⟩ := hx
          exact hEnd.le_of_mem hClique hUnion hv hx
        · -- what is left are neighbours of the pivot, which is done with
          have hLeft : ∀ a ∈ clique, adj pivot a = true := by
            intro a ha
            have hp := (hUnion a ha).resolve_right fun hax => hx ⟨a, ha, hax⟩
            obtain ⟨hp, hNot⟩ := List.mem_filter.mp hp
            rw [decide_eq_true_iff, hCandidates, not_and, Bool.not_eq_false] at hNot
            exact hNot hp
          have hDone : pivot ∈ (p.filter fun vertex => !adj pivot vertex).reverse ++ x := by
            rw [List.mem_append, List.mem_reverse, hCandidates]
            exact (List.mem_append.mp (choosePivot_mem hPivot)).imp (fun hp => ⟨hp, hIrrefl pivot⟩) id
          have hLe := hEnd pivot hDone clique hClique hUnion hLeft
          have hWeight := hNonneg pivot
          omega

theorem expandMaxWeight_spec (hSymm : ∀ a b, adj a b = adj b a) (hIrrefl : ∀ a, adj a a = false)
    (hNonneg : ∀ a, 0 ≤ weight a) {fuel : Nat} (hNodup : p.Nodup)
    (hFuel : p.length < fuel) (hStart : depth = 0 → ansWeight ≤ bestWeight)
    (hProcessed : Processed adj weight ansWeight p x bestWeight) :
    Improves adj weight ansWeight p x bestWeight
      (expandMaxWeight adj weight fuel depth ansWeight p x bestWeight) := by
  induction fuel generalizing depth ansWeight bestWeight p x with
  | zero => omega
  | succ fuel ih =>
    rw [expandMaxWeight_succ]
    refine expandStep_spec hSymm hIrrefl hNonneg hNodup ?_ hStart hProcessed
    intro p' x' best v hNodup' hLess hProcessed'
    exact ih hNodup' (by omega) (by omega) hProcessed'

variable (adj weight) in
/-- The value is the one given or the weight of a clique of the candidates, joined to what was taken. -/
def Attained (ansWeight : Int) (p : List A) (bestWeight value : Int) : Prop :=
  value = bestWeight ∨ ∃ clique, IsClique adj clique ∧ (∀ a ∈ clique, a ∈ p) ∧
    value = ansWeight + ∑ a ∈ clique, weight a

section

variable (hSymm : ∀ a b, adj a b = adj b a)

include hSymm

theorem Attained.branch {best value : Int} {p' : List A}
    (hIrrefl : adj v v = false) (hv : v ∈ p) (hSub : ∀ a ∈ p', a ∈ p)
    (hBest : Attained adj weight ansWeight p bestWeight best)
    (h : Attained adj weight (ansWeight + weight v) (p'.filter (adj v)) best value) :
    Attained adj weight ansWeight p bestWeight value := by
  rcases h with rfl | ⟨clique, hClique, hFilter, rfl⟩
  · exact hBest
  · have hAdj : ∀ a ∈ clique, adj v a = true := fun a ha => (List.mem_filter.mp (hFilter a ha)).2
    have hNew : v ∉ clique := fun hMem => by
      rw [hAdj v hMem] at hIrrefl
      cases hIrrefl
    refine .inr ⟨insert v clique, hClique.insert hSymm hAdj, fun a ha => ?_, ?_⟩
    · rcases Finset.mem_insert.mp ha with rfl | ha'
      · exact hv
      · exact hSub a (List.mem_of_mem_filter (hFilter a ha'))
    · rw [Finset.sum_insert hNew]
      omega

theorem foldl_expand_attained (hIrrefl : ∀ a, adj a a = false) (expand : List A → List A → Int → A → Int)
    (hExpand : ∀ p x best v, Attained adj weight (ansWeight + weight v) p best (expand p x best v))
    {candidates : List A} {state : List A × List A × Int} (hState : ∀ a ∈ state.1, a ∈ p)
    (hCandidates : ∀ v ∈ candidates, v ∈ p) (hBest : Attained adj weight ansWeight p bestWeight state.2.2) :
    Attained adj weight ansWeight p bestWeight (candidates.foldl (fun (state : List A × List A × Int) vertex =>
      (state.1.filter (· ≠ vertex), vertex :: state.2.1,
        expand (state.1.filter (adj vertex)) (state.2.1.filter (adj vertex)) state.2.2 vertex)) state).2.2 := by
  induction candidates generalizing state with
  | nil => exact hBest
  | cons v candidates ih =>
    obtain ⟨hv, hCandidates⟩ := List.forall_mem_cons.mp hCandidates
    exact ih (fun a ha => hState a (List.mem_of_mem_filter ha)) hCandidates
      (hBest.branch hSymm (hIrrefl v) hv hState (hExpand _ _ _ _))

theorem expandStep_attained (hIrrefl : ∀ a, adj a a = false)
    (hExpand : ∀ p x best v, Attained adj weight (ansWeight + weight v) p best (expand p x best v)) :
    Attained adj weight ansWeight p bestWeight (expandStep adj weight expand depth ansWeight p x bestWeight) := by
  rw [expandStep]
  split
  · split
    · exact .inr ⟨∅, by simp [IsClique], by simp, by simp⟩
    · exact .inl rfl
  · split
    · exact .inl rfl
    · split
      · exact .inl rfl
      · split
        · exact .inl rfl
        · exact foldl_expand_attained hSymm hIrrefl expand hExpand (fun a ha => ha)
            (fun v hv => List.mem_of_mem_filter hv) (.inl rfl)

theorem expandMaxWeight_attained (hIrrefl : ∀ a, adj a a = false) (fuel : Nat) :
    ∀ (depth : Nat) (ansWeight : Int) (p x : List A) (bestWeight : Int), Attained adj weight ansWeight p bestWeight
      (expandMaxWeight adj weight fuel depth ansWeight p x bestWeight) := by
  induction fuel with
  | zero => exact fun _ _ _ _ _ => .inl rfl
  | succ fuel ih =>
    intro depth ansWeight p x bestWeight
    rw [expandMaxWeight_succ]
    exact expandStep_attained hSymm hIrrefl fun p x best v => ih _ _ _ _ _

end

theorem adjacent_comm (edges : List (A × A)) (a b : A) : adjacent edges a b = adjacent edges b a := by
  rw [adjacent, adjacent, decide_eq_decide, ne_comm, or_comm]

theorem adjacent_self (edges : List (A × A)) (a : A) : adjacent edges a a = false :=
  decide_eq_false fun h => h.1 rfl

theorem mem_nodes {edges : List (A × A)} {a : A} : a ∈ nodes edges ↔ ∃ b, (a, b) ∈ edges ∨ (b, a) ∈ edges := by
  rw [nodes, List.mem_dedup, List.mem_flatMap]
  constructor
  · rintro ⟨⟨x, y⟩, hEdge, hMem⟩
    simp only [List.mem_cons, List.not_mem_nil, or_false] at hMem
    rcases hMem with rfl | rfl
    · exact ⟨y, .inl hEdge⟩
    · exact ⟨x, .inr hEdge⟩
  · rintro ⟨b, hEdge | hEdge⟩
    · exact ⟨(a, b), hEdge, by simp⟩
    · exact ⟨(b, a), hEdge, by simp⟩

variable {weights : List (A × Int)}

theorem weightIn_nonneg (hNonneg : ∀ entry ∈ weights, 0 ≤ entry.2) (a : A) :
    0 ≤ weightIn weights a := by
  rw [weightIn]
  cases hFind : weights.find? (·.1 = a) with
  | none => exact Int.le_refl 0
  | some entry => exact hNonneg entry (List.mem_of_find?_eq_some hFind)

theorem weightIn_of_mem (hNodup : (weights.map Prod.fst).Nodup) {entry : A × Int}
    (h : entry ∈ weights) : weightIn weights entry.1 = entry.2 := by
  rw [weightIn]
  cases hFind : weights.find? (·.1 = entry.1) with
  | none => exact absurd (decide_eq_true rfl) (List.find?_eq_none.mp hFind entry h)
  | some found =>
    have hKey : found.1 = entry.1 := by simpa using List.find?_some hFind
    rw [List.inj_on_of_nodup_map hNodup (List.mem_of_find?_eq_some hFind) h hKey]
    rfl

/-- Nothing is better than the result: neither a vertex alone nor a clique. -/
structure Bounds (edges : List (A × A)) (weights : List (A × Int)) (bound : Int) : Prop where
  nonneg : 0 ≤ bound
  single : ∀ entry ∈ weights, entry.2 ≤ bound
  clique : ∀ clique, IsClique (adjacent edges) clique → (∀ a ∈ clique, a ∈ nodes edges) →
    ∑ a ∈ clique, weightIn weights a ≤ bound

omit [DecidableEq A] in
theorem firstBest_spec (hNonneg : ∀ entry ∈ weights, 0 ≤ entry.2) :
    0 ≤ (weights.map Prod.snd).max?.getD 0 ∧ ∀ entry ∈ weights, entry.2 ≤ (weights.map Prod.snd).max?.getD 0 := by
  cases hMax : (weights.map Prod.snd).max? with
  | none =>
    rw [List.map_eq_nil_iff.mp (List.max?_eq_none_iff.mp hMax)]
    exact ⟨Int.le_refl 0, by simp⟩
  | some top =>
    obtain ⟨hTop, hAll⟩ := List.max?_eq_some_iff.mp hMax
    obtain ⟨entry, hEntry, rfl⟩ := List.mem_map.mp hTop
    exact ⟨hNonneg entry hEntry, fun other hOther => hAll _ (List.mem_map.mpr ⟨other, hOther, rfl⟩)⟩

omit [DecidableEq A] in
theorem firstBest_eq (weights : List (A × Int)) :
    (weights.map Prod.snd).max?.getD 0 = 0 ∨ ∃ entry ∈ weights, (weights.map Prod.snd).max?.getD 0 = entry.2 := by
  cases hMax : (weights.map Prod.snd).max? with
  | none => exact .inl rfl
  | some top =>
    obtain ⟨entry, hEntry, hEq⟩ := List.mem_map.mp (List.max?_eq_some_iff.mp hMax).1
    exact .inr ⟨entry, hEntry, hEq.symm⟩

theorem findMaximumCliqueByWeight_bounds (edges : List (A × A))
    (hNonneg : ∀ entry ∈ weights, 0 ≤ entry.2) : Bounds edges weights (findMaximumCliqueByWeight edges weights) := by
  have hStart := firstBest_spec hNonneg
  have hEmpty : Processed (adjacent edges) (weightIn weights) 0 (nodes edges) []
      ((weights.map Prod.snd).max?.getD 0) := fun v hv => absurd hv List.not_mem_nil
  obtain ⟨hMono, hBound⟩ := expandMaxWeight_spec (adjacent_comm edges) (adjacent_self edges)
    (weightIn_nonneg hNonneg) (List.nodup_dedup _) (Nat.lt_succ_self _) (fun _ => hStart.1) hEmpty
  refine ⟨hStart.1.trans hMono, fun entry hEntry => (hStart.2 entry hEntry).trans hMono, fun clique hClique hSub => ?_⟩
  have hLe := hBound clique hClique fun a ha => .inl (hSub a ha)
  rwa [Int.zero_add] at hLe

theorem findMaximumCliqueByWeight_attained (edges : List (A × A)) (weights : List (A × Int)) :
    findMaximumCliqueByWeight edges weights = 0 ∨ (∃ entry ∈ weights, findMaximumCliqueByWeight edges weights = entry.2) ∨
      ∃ clique, IsClique (adjacent edges) clique ∧ (∀ a ∈ clique, a ∈ nodes edges) ∧
        findMaximumCliqueByWeight edges weights = ∑ a ∈ clique, weightIn weights a := by
  have hAttained : Attained (adjacent edges) (weightIn weights) 0 (nodes edges) ((weights.map Prod.snd).max?.getD 0)
      (findMaximumCliqueByWeight edges weights) :=
    expandMaxWeight_attained (adjacent_comm edges) (adjacent_self edges) _ _ _ _ _ _
  rcases hAttained with hStart | ⟨clique, hClique, hSub, hEq⟩
  · rw [hStart]
    exact (firstBest_eq weights).imp_right .inl
  · rw [Int.zero_add] at hEq
    exact .inr (.inr ⟨clique, hClique, hSub, hEq⟩)

theorem findMaximumCliqueByWeight_mono {edges edges' : List (A × A)} {weights' : List (A × Int)}
    (hNonneg : ∀ entry ∈ weights', 0 ≤ entry.2) (hNodup : (weights'.map Prod.fst).Nodup)
    (hEdges : ∀ edge ∈ edges, edge ∈ edges') (hWeights : ∀ entry ∈ weights, entry ∈ weights') :
    findMaximumCliqueByWeight edges weights ≤ findMaximumCliqueByWeight edges' weights' := by
  have hBounds := findMaximumCliqueByWeight_bounds edges' hNonneg
  rcases findMaximumCliqueByWeight_attained edges weights with hZero | ⟨entry, hEntry, hEq⟩ |
    ⟨clique, hClique, hSub, hEq⟩
  · rw [hZero]
    exact hBounds.nonneg
  · rw [hEq]
    exact hBounds.single entry (hWeights entry hEntry)
  · rw [hEq]
    have hLe : ∀ a ∈ clique, weightIn weights a ≤ weightIn weights' a := by
      intro a _
      rw [weightIn]
      cases hFind : weights.find? (·.1 = a) with
      | none => exact weightIn_nonneg hNonneg a
      | some found =>
        have hKey : found.1 = a := by simpa using List.find?_some hFind
        have hMem := hWeights found (List.mem_of_find?_eq_some hFind)
        rw [← hKey, weightIn_of_mem hNodup hMem]
        exact Int.le_refl _
    refine (Finset.sum_le_sum hLe).trans (hBounds.clique clique (fun a ha b hb hNe => ?_) fun a ha => ?_)
    · have hAdj := of_decide_eq_true (hClique a ha b hb hNe)
      exact decide_eq_true ⟨hNe, hAdj.2.imp (hEdges _) (hEdges _)⟩
    · obtain ⟨b, hEdge⟩ := mem_nodes.mp (hSub a ha)
      exact mem_nodes.mpr ⟨b, hEdge.imp (hEdges _) (hEdges _)⟩

end Clique

end F1r3Node.Finality
