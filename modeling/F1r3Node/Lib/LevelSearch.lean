import Mathlib.Data.Finset.Card

/-! # Search by levels

The nodes of one level are expanded one after the other; what they lead to and was not seen becomes the next level.
-/

namespace F1r3Node.Lib.LevelSearch

variable {N : Type*} [DecidableEq N]

def discover (seen : Finset N) : List N → Finset N × List N
  | [] => (seen, [])
  | n :: ns =>
    if n ∈ seen then discover seen ns
    else
      let (seen', found) := discover (insert n seen) ns
      (seen', n :: found)

def search (next : N → List N) : Nat → List N → Finset N → Finset N
  | 0, _, seen => seen
  | rounds + 1, level, seen =>
    if level = [] then seen
    else
      let (seen', found) := discover seen (level.flatMap next)
      search next rounds found seen'

variable {next : N → List N}

variable {seen : Finset N} {ns : List N}

theorem mem_discover_seen {n : N} : n ∈ (discover seen ns).1 ↔ n ∈ seen ∨ n ∈ ns := by
  induction ns generalizing seen with
  | nil => simp [discover]
  | cons m ns ih =>
    rw [discover]
    split
    · next hSeen =>
      rw [ih, List.mem_cons]
      constructor
      · exact Or.imp_right .inr
      · rintro (h | rfl | h)
        · exact .inl h
        · exact .inl hSeen
        · exact .inr h
    · change n ∈ (discover (insert m seen) ns).1 ↔ _
      rw [ih, Finset.mem_insert, List.mem_cons, or_comm (a := n = m), or_assoc]

theorem mem_discover_found {n : N} :
    n ∈ (discover seen ns).2 ↔ n ∈ ns ∧ n ∉ seen := by
  induction ns generalizing seen with
  | nil => simp [discover]
  | cons m ns ih =>
    rw [discover]
    split
    · next hSeen =>
      rw [ih, List.mem_cons]
      constructor
      · exact fun h => ⟨.inr h.1, h.2⟩
      · rintro ⟨rfl | h, hNot⟩
        · exact absurd hSeen hNot
        · exact ⟨h, hNot⟩
    · next hNew =>
      change n ∈ m :: (discover (insert m seen) ns).2 ↔ _
      rw [List.mem_cons, List.mem_cons, ih, Finset.mem_insert, not_or]
      by_cases hEq : n = m
      · subst hEq
        exact iff_of_true (.inl rfl) ⟨.inl rfl, hNew⟩
      · simp [hEq]

theorem subset_discover : seen ⊆ (discover seen ns).1 :=
  fun _ h => mem_discover_seen.mpr (.inl h)

variable {rounds : Nat} {level : List N}

theorem subset_search : seen ⊆ search next rounds level seen := by
  induction rounds generalizing level seen with
  | zero => exact Finset.Subset.refl seen
  | succ rounds ih =>
    rw [search]
    split
    · exact Finset.Subset.refl seen
    · exact subset_discover.trans ih

variable {bound : Finset N}

theorem search_subset (hNext : ∀ n, ∀ m ∈ next n, m ∈ bound)
    (hSeen : seen ⊆ bound) : search next rounds level seen ⊆ bound := by
  induction rounds generalizing level seen with
  | zero => exact hSeen
  | succ rounds ih =>
    rw [search]
    split
    · exact hSeen
    · refine ih fun n hn => ?_
      obtain hOld | hNew := mem_discover_seen.mp hn
      · exact hSeen hOld
      · obtain ⟨m, -, hm⟩ := List.mem_flatMap.mp hNew
        exact hNext m n hm

theorem length_discover (seen : Finset N) (ns : List N) :
    (discover seen ns).2.length + seen.card = (discover seen ns).1.card := by
  induction ns generalizing seen with
  | nil => exact Nat.zero_add _
  | cons m ns ih =>
    rw [discover]
    split
    · exact ih seen
    · next hNew =>
      have hTail := ih (insert m seen)
      rw [Finset.card_insert_of_notMem hNew] at hTail
      change (m :: (discover (insert m seen) ns).2).length + seen.card = (discover (insert m seen) ns).1.card
      rw [List.length_cons]
      omega

theorem card_lt_card_discover (h : (discover seen ns).2 ≠ []) :
    seen.card < (discover seen ns).1.card := by
  obtain ⟨n, hn⟩ := List.exists_mem_of_ne_nil _ h
  obtain ⟨hMem, hNew⟩ := mem_discover_found.mp hn
  exact Finset.card_lt_card (Finset.ssubset_iff_subset_ne.mpr
    ⟨subset_discover, fun hEq => hNew (hEq ▸ mem_discover_seen.mpr (.inr hMem))⟩)

theorem search_closed (hNext : ∀ n, ∀ m ∈ next n, m ∈ bound)
    {seen : Finset N} (hSeen : seen ⊆ bound) (hRounds : level ≠ [] → bound.card < rounds + seen.card)
    (hClosed : ∀ n ∈ seen, n ∉ level → ∀ m ∈ next n, m ∈ seen) :
    (∀ n ∈ level, ∀ m ∈ next n, m ∈ search next rounds level seen) ∧
      ∀ n ∈ search next rounds level seen, ∀ m ∈ next n, m ∈ search next rounds level seen := by
  induction rounds generalizing level seen with
  | zero =>
    have hLevel : level = [] := by
      by_contra hNe
      have hLt := hRounds hNe
      have hLe := Finset.card_le_card hSeen
      omega
    subst hLevel
    exact ⟨fun n hn => absurd hn List.not_mem_nil, fun n hn m hm => hClosed n hn List.not_mem_nil m hm⟩
  | succ rounds ih =>
    rw [search]
    split
    · next hLevel =>
      subst hLevel
      exact ⟨fun n hn => absurd hn List.not_mem_nil, fun n hn m hm => hClosed n hn List.not_mem_nil m hm⟩
    · next hLevel =>
      have hNew : ∀ n ∈ level, ∀ m ∈ next n, m ∈ (discover seen (level.flatMap next)).1 :=
        fun n hn m hm => mem_discover_seen.mpr (.inr (List.mem_flatMap.mpr ⟨n, hn, hm⟩))
      have hBound : (discover seen (level.flatMap next)).1 ⊆ bound := by
        intro n hn
        obtain hOld | hFound := mem_discover_seen.mp hn
        · exact hSeen hOld
        · obtain ⟨k, -, hk⟩ := List.mem_flatMap.mp hFound
          exact hNext k n hk
      refine (ih hBound (fun hNe => ?_) fun n hn hNot m hm => ?_).imp_left fun _ n hn m hm => subset_search (hNew n hn m hm)
      · have hLt := card_lt_card_discover hNe
        have := hRounds hLevel
        omega
      · by_cases hOld : n ∈ seen
        · by_cases hIn : n ∈ level
          · exact hNew n hIn m hm
          · exact subset_discover (hClosed n hOld hIn m hm)
        · have hFound := (mem_discover_seen.mp hn).resolve_left hOld
          exact absurd (mem_discover_found.mpr ⟨hFound, hOld⟩) hNot

theorem search_from (hNext : ∀ n, ∀ m ∈ next n, m ∈ bound) (start : N) :
    search next (bound.card + 1) [start] ∅ ⊆ bound ∧
      (∀ m ∈ next start, m ∈ search next (bound.card + 1) [start] ∅) ∧
      ∀ n ∈ search next (bound.card + 1) [start] ∅, ∀ m ∈ next n, m ∈ search next (bound.card + 1) [start] ∅ := by
  have hRounds : [start] ≠ [] → bound.card < bound.card + 1 + (∅ : Finset N).card := fun _ => Nat.lt_succ_self _
  obtain ⟨hStart, hClosed⟩ := search_closed hNext (Finset.empty_subset bound) hRounds fun n hn => absurd hn (Finset.notMem_empty n)
  exact ⟨search_subset hNext (Finset.empty_subset bound), hStart start List.mem_cons_self, hClosed⟩

end F1r3Node.Lib.LevelSearch
