import Mathlib.Combinatorics.SimpleGraph.Clique

/-! # Rejecting the neighbours of kept nodes

Conflicts are resolved by keeping one node after the other and rejecting what conflicts with it.
-/

namespace F1r3Node.Lib.Rejections

variable {α : Type*} [DecidableEq α]

def Step (neighbours : α → Finset α) (S T : Finset α) : Prop :=
  ∃ k, k ∉ S ∧ ¬ neighbours k ⊆ S ∧ T = S ∪ neighbours k

def Settled (neighbours : α → Finset α) (S : Finset α) : Prop := ∀ k, k ∉ S → neighbours k ⊆ S

def IsRejection (neighbours : α → Finset α) (S : Finset α) : Prop :=
  Settled neighbours S ∧ ∀ a ∈ S, ∃ b, b ∉ S ∧ b ∈ neighbours a

def unsettled (neighbours : α → Finset α) (nodes S : Finset α) : Finset α :=
  nodes.filter fun k => k ∉ S ∧ ¬ neighbours k ⊆ S

variable {neighbours : α → Finset α} {S T : Finset α}

theorem card_unsettled_lt (nodes : Finset α) {k : α} (hk : k ∈ unsettled neighbours nodes S) :
    (unsettled neighbours nodes (S ∪ neighbours k)).card < (unsettled neighbours nodes S).card := by
  refine Finset.card_lt_card (Finset.ssubset_iff_of_subset ?_ |>.mpr ⟨k, hk, ?_⟩)
  · intro j hj
    obtain ⟨hNode, hOut, hOpen⟩ := Finset.mem_filter.mp hj
    refine Finset.mem_filter.mpr ⟨hNode, fun h => hOut (Finset.mem_union_left _ h), fun h => hOpen ?_⟩
    exact h.trans Finset.subset_union_left
  · intro hOpen
    exact (Finset.mem_filter.mp hOpen).2.2 Finset.subset_union_right

theorem exists_reach_settled (nodes : Finset α) (hNodes : ∀ k, neighbours k ≠ ∅ → k ∈ nodes) (S : Finset α) :
    ∃ T, Relation.ReflTransGen (Step neighbours) S T ∧ Settled neighbours T := by
  induction hCard : (unsettled neighbours nodes S).card using Nat.strong_induction_on generalizing S with
  | _ n ih =>
    by_cases hDone : Settled neighbours S
    · exact ⟨S, .refl, hDone⟩
    · unfold Settled at hDone
      push Not at hDone
      obtain ⟨k, hk, hOpen⟩ := hDone
      have hNonempty : neighbours k ≠ ∅ := fun h => hOpen (h ▸ Finset.empty_subset S)
      have hMem : k ∈ unsettled neighbours nodes S := Finset.mem_filter.mpr ⟨hNodes k hNonempty, hk, hOpen⟩
      have hFewer := card_unsettled_lt nodes hMem
      obtain ⟨T, hReach, hSettled⟩ := ih _ (hCard ▸ hFewer) (S ∪ neighbours k) rfl
      exact ⟨T, .head ⟨k, hk, hOpen, rfl⟩ hReach, hSettled⟩

section symmetric

variable (hSymm : ∀ a b, a ∈ neighbours b → b ∈ neighbours a) (hIrrefl : ∀ a, a ∉ neighbours a)

include hSymm hIrrefl in
theorem exists_kept_of_reach (h : Relation.ReflTransGen (Step neighbours) ∅ S) :
    ∀ a ∈ S, ∃ b, b ∉ S ∧ b ∈ neighbours a ∧ neighbours b ⊆ S := by
  induction h with
  | refl => exact fun a ha => absurd ha (Finset.notMem_empty a)
  | tail _ hStep ih =>
    obtain ⟨k, hk, -, rfl⟩ := hStep
    intro a ha
    obtain ha | ha := Finset.mem_union.mp ha
    · obtain ⟨b, hb, hNeighbour, hClosed⟩ := ih a ha
      refine ⟨b, ?_, hNeighbour, hClosed.trans Finset.subset_union_left⟩
      intro hMem
      obtain hMem | hMem := Finset.mem_union.mp hMem
      · exact hb hMem
      · exact hk (hClosed (hSymm b k hMem))
    · refine ⟨k, ?_, hSymm a k ha, Finset.subset_union_right⟩
      intro hMem
      obtain hMem | hMem := Finset.mem_union.mp hMem
      · exact hk hMem
      · exact hIrrefl k hMem

include hSymm in
theorem reach_of_isRejection (hT : IsRejection neighbours T) (nodes : Finset α)
    (hNodes : ∀ k, neighbours k ≠ ∅ → k ∈ nodes) (hSub : S ⊆ T) :
    Relation.ReflTransGen (Step neighbours) S T := by
  obtain ⟨hSettled, hKept⟩ := hT
  induction hCard : (unsettled neighbours nodes S).card using Nat.strong_induction_on generalizing S with
  | _ n ih =>
    by_cases hDone : Settled neighbours S
    · have hEq : S = T := by
        refine hSub.antisymm fun a ha => ?_
        obtain ⟨b, hb, hNeighbour⟩ := hKept a ha
        exact hDone b (fun h => hb (hSub h)) (hSymm b a hNeighbour)
      rw [hEq]
    · -- an unsettled edge has an end outside the rejection, or one of its ends has a kept neighbour
      obtain ⟨k, hk, hOpen⟩ : ∃ k, k ∉ T ∧ ¬ neighbours k ⊆ S := by
        unfold Settled at hDone
        push Not at hDone
        obtain ⟨k, hk, hOpen⟩ := hDone
        by_cases hkT : k ∈ T
        · obtain ⟨b, hb, hNeighbour⟩ := hKept k hkT
          exact ⟨b, hb, fun h => hk (h (hSymm b k hNeighbour))⟩
        · exact ⟨k, hkT, hOpen⟩
      have hkS : k ∉ S := fun h => hk (hSub h)
      have hNonempty : neighbours k ≠ ∅ := fun h => hOpen (h ▸ Finset.empty_subset S)
      have hMem : k ∈ unsettled neighbours nodes S := Finset.mem_filter.mpr ⟨hNodes k hNonempty, hkS, hOpen⟩
      have hFewer := card_unsettled_lt nodes hMem
      have hStep : Step neighbours S (S ∪ neighbours k) := ⟨k, hkS, hOpen, rfl⟩
      refine Relation.ReflTransGen.head hStep (ih _ (hCard ▸ hFewer) ?_ rfl)
      exact Finset.union_subset hSub (hSettled k hk)

include hSymm hIrrefl in
theorem reach_settled_iff (nodes : Finset α) (hNodes : ∀ k, neighbours k ≠ ∅ → k ∈ nodes) :
    Relation.ReflTransGen (Step neighbours) ∅ S ∧ Settled neighbours S ↔ IsRejection neighbours S := by
  constructor
  · rintro ⟨hReach, hSettled⟩
    refine ⟨hSettled, fun a ha => ?_⟩
    obtain ⟨b, hb, hNeighbour, -⟩ := exists_kept_of_reach hSymm hIrrefl hReach a ha
    exact ⟨b, hb, hNeighbour⟩
  · intro h
    exact ⟨reach_of_isRejection hSymm h nodes hNodes (Finset.empty_subset S), h.1⟩

include hSymm hIrrefl in
theorem exists_isRejection (nodes : Finset α) (hNodes : ∀ k, neighbours k ≠ ∅ → k ∈ nodes) :
    ∃ S, IsRejection neighbours S := by
  obtain ⟨S, hReach⟩ := exists_reach_settled nodes hNodes ∅
  exact ⟨S, (reach_settled_iff hSymm hIrrefl nodes hNodes).mp hReach⟩

end symmetric

omit [DecidableEq α] in
theorem IsRejection.eq_empty (hT : IsRejection neighbours T) (hNone : Settled neighbours ∅) : T = ∅ := by
  refine Finset.eq_empty_of_forall_notMem fun a ha => ?_
  obtain ⟨b, -, hNeighbour⟩ := hT.2 a ha
  exact Finset.notMem_empty b (hNone a (Finset.notMem_empty a) hNeighbour)

omit [DecidableEq α] in
theorem isRejection_iff_maximal_isIndepSet {G : SimpleGraph α} (hAdj : ∀ a b, G.Adj a b ↔ b ∈ neighbours a) :
    IsRejection neighbours S ↔ ∃ I, Maximal G.IsIndepSet I ∧ (S : Set α) = {a | ∃ b, G.Adj a b} \ I := by
  constructor
  · rintro ⟨hSettled, hKept⟩
    refine ⟨(↑S)ᶜ, ⟨?_, ?_⟩, ?_⟩
    · intro a ha b hb _ hab
      exact hb (hSettled a ha ((hAdj a b).mp hab))
    · -- a rejected node has a kept neighbour, so nothing can be added
      intro J hJ hSub a ha haS
      obtain ⟨b, hb, hNeighbour⟩ := hKept a haS
      have hab := (hAdj a b).mpr hNeighbour
      exact hJ ha (hSub hb) hab.ne hab
    · ext a
      simp only [Set.mem_sdiff, Set.mem_ofPred_eq, Set.mem_compl_iff, not_not]
      refine ⟨fun ha => ⟨?_, ha⟩, And.right⟩
      obtain ⟨b, -, hNeighbour⟩ := hKept a ha
      exact ⟨b, (hAdj a b).mpr hNeighbour⟩
  · rintro ⟨I, hMax, hEq⟩
    have hMem : ∀ a, a ∈ S ↔ (∃ b, G.Adj a b) ∧ a ∉ I := fun a => by
      rw [← Finset.mem_coe, hEq]
      rfl
    constructor
    · intro k hk b hb
      have hkb := (hAdj k b).mpr hb
      have hkI : k ∈ I := by
        by_contra hOut
        exact hk ((hMem k).mpr ⟨⟨b, hkb⟩, hOut⟩)
      exact (hMem b).mpr ⟨⟨k, hkb.symm⟩, fun hbI => hMax.prop hkI hbI hkb.ne hkb⟩
    · intro a ha
      obtain ⟨-, haI⟩ := (hMem a).mp ha
      -- otherwise the node could be added
      by_contra hNone
      have hFree : ∀ b ∈ I, ¬ G.Adj a b := fun b hb hab =>
        hNone ⟨b, fun hbS => ((hMem b).mp hbS).2 hb, (hAdj a b).mp hab⟩
      have hInsert : G.IsIndepSet (insert a I) := hMax.prop.insert fun b hb _ =>
        ⟨hFree b hb, fun hba => hFree b hb hba.symm⟩
      exact haI (hMax.le_of_ge hInsert (Set.subset_insert a I) (Set.mem_insert a I))

def within (part : List α) (neighbours : α → Finset α) (a : α) : Finset α := if a ∈ part then neighbours a else ∅

theorem IsRejection.restrict (hS : IsRejection neighbours S) {part : List α}
    (hClosed : ∀ a ∈ part, ∀ b ∈ neighbours a, b ∈ part) :
    IsRejection (within part neighbours) (S.filter (· ∈ part)) := by
  constructor
  · intro k hk
    rw [within]
    split_ifs with hPart
    · have hOut : k ∉ S := fun h => hk (Finset.mem_filter.mpr ⟨h, hPart⟩)
      exact fun b hb => Finset.mem_filter.mpr ⟨hS.1 k hOut hb, hClosed k hPart b hb⟩
    · exact Finset.empty_subset _
  · intro a ha
    obtain ⟨haS, haPart⟩ := Finset.mem_filter.mp ha
    obtain ⟨b, hb, hNeighbour⟩ := hS.2 a haS
    exact ⟨b, fun h => hb (Finset.mem_filter.mp h).1, by rwa [within, if_pos haPart]⟩

theorem IsRejection.mem_part {part : List α} (hS : IsRejection (within part neighbours) S) {a : α} (ha : a ∈ S) :
    a ∈ part := by
  obtain ⟨b, -, hb⟩ := hS.2 a ha
  rw [within] at hb
  split_ifs at hb with hPart
  · exact hPart
  · exact absurd hb (Finset.notMem_empty b)

theorem isRejection_of_parts {parts : List (List α)} (hCover : ∀ a, neighbours a ≠ ∅ → ∃ part ∈ parts, a ∈ part)
    (hMem : ∀ a ∈ S, ∃ part ∈ parts, a ∈ part) (hClosed : ∀ part ∈ parts, ∀ a ∈ part, ∀ b ∈ neighbours a, b ∈ part)
    (hParts : ∀ part ∈ parts, IsRejection (within part neighbours) (S.filter (· ∈ part))) :
    IsRejection neighbours S := by
  constructor
  · intro k hk
    by_cases hEmpty : neighbours k = ∅
    · rw [hEmpty]
      exact Finset.empty_subset S
    · obtain ⟨part, hPart, hkPart⟩ := hCover k hEmpty
      have hSub := (hParts part hPart).1 k fun h => hk (Finset.mem_filter.mp h).1
      rw [within, if_pos hkPart] at hSub
      exact hSub.trans (Finset.filter_subset _ S)
  · intro a ha
    obtain ⟨part, hPart, haPart⟩ := hMem a ha
    obtain ⟨b, hb, hNeighbour⟩ := (hParts part hPart).2 a (Finset.mem_filter.mpr ⟨ha, haPart⟩)
    rw [within, if_pos haPart] at hNeighbour
    exact ⟨b, fun h => hb (Finset.mem_filter.mpr ⟨h, hClosed part hPart a haPart b hNeighbour⟩), hNeighbour⟩

end F1r3Node.Lib.Rejections
