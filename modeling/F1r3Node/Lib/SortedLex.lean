import Mathlib.Data.Finset.Sort
import Mathlib.Data.List.Lex

/-! # Sets compared by their sorted elements

Two sets are compared by the lexicographic order of their sorted elements.
-/

namespace F1r3Node.Lib.SortedLex

variable {α : Type*} [LinearOrder α] {s t d : Finset α} {m : α}

theorem sort_union_of_lt (h : ∀ a ∈ s, ∀ b ∈ t, a < b) :
    (s ∪ t).sort (· ≤ ·) = s.sort (· ≤ ·) ++ t.sort (· ≤ ·) := by
  have hNodup : (s.sort (· ≤ ·) ++ t.sort (· ≤ ·)).Nodup := by
    refine List.nodup_append.mpr ⟨s.sort_nodup _, t.sort_nodup _, ?_⟩
    intro a ha b hb
    exact (h a ((Finset.mem_sort _).mp ha) b ((Finset.mem_sort _).mp hb)).ne
  refine List.Perm.eq_of_pairwise (fun a b _ _ hab hba => le_antisymm hab hba) ((s ∪ t).pairwise_sort _) ?_ ?_
  · refine List.pairwise_append.mpr ⟨s.pairwise_sort _, t.pairwise_sort _, ?_⟩
    intro a ha b hb
    exact (h a ((Finset.mem_sort _).mp ha) b ((Finset.mem_sort _).mp hb)).le
  · refine (List.perm_ext_iff_of_nodup ((s ∪ t).sort_nodup _) hNodup).mpr fun a => ?_
    simp

theorem sort_pair {β : Type*} [DecidableEq β] {r : β → β → Prop} [DecidableRel r] [IsTrans β r] [Std.Antisymm r]
    [Std.Total r] {a b : β} (h : r a b) (hNe : a ≠ b) : ({a, b} : Finset β).sort r = [a, b] := by
  rw [Finset.sort_insert r (by simpa using h) (by simpa using hNe), Finset.sort_singleton]

theorem sort_split (s : Finset α) (m : α) :
    s.sort (· ≤ ·) = (s.filter (· < m)).sort (· ≤ ·) ++ (s.filter (m ≤ ·)).sort (· ≤ ·) := by
  rw [← sort_union_of_lt]
  · congr 1
    ext a
    simp only [Finset.mem_union, Finset.mem_filter, ← and_or_left, lt_or_ge, and_true]
  · intro a ha b hb
    exact (Finset.mem_filter.mp ha).2.trans_le (Finset.mem_filter.mp hb).2

theorem append_lt_append (l : List α) {x y : List α} (h : x < y) : l ++ x < l ++ y := by
  induction l with
  | nil => exact h
  | cons a l ih => exact List.cons_lt_cons_iff.mpr (.inr ⟨rfl, ih⟩)

structure FirstDiff (s t : Finset α) (m : α) : Prop where
  mem : m ∈ s
  not_mem : m ∉ t
  agree : ∀ a < m, a ∈ s ↔ a ∈ t

theorem FirstDiff.filter_lt (h : FirstDiff s t m) : s.filter (· < m) = t.filter (· < m) := by
  ext a
  simp only [Finset.mem_filter]
  exact and_congr_left (h.agree a)

theorem FirstDiff.sort_filter_le (h : FirstDiff s t m) :
    (s.filter (m ≤ ·)).sort (· ≤ ·) = m :: ((s.filter (m ≤ ·)).erase m).sort (· ≤ ·) := by
  have hMem : m ∈ s.filter (m ≤ ·) := Finset.mem_filter.mpr ⟨h.mem, le_rfl⟩
  rw [← Finset.sort_insert, Finset.insert_erase hMem]
  · intro b hb
    exact (Finset.mem_filter.mp (Finset.mem_of_mem_erase hb)).2
  · exact Finset.notMem_erase m _

theorem FirstDiff.sort_lt (h : FirstDiff s t m) {b : α} (hb : b ∈ t) (hLt : m < b) :
    s.sort (· ≤ ·) < t.sort (· ≤ ·) := by
  rw [sort_split s m, sort_split t m, h.filter_lt]
  apply append_lt_append
  rw [h.sort_filter_le]
  cases hSort : (t.filter (m ≤ ·)).sort (· ≤ ·) with
  | nil =>
    have hMem : b ∈ (t.filter (m ≤ ·)).sort (· ≤ ·) :=
      (Finset.mem_sort _).mpr (Finset.mem_filter.mpr ⟨hb, hLt.le⟩)
    rw [hSort] at hMem
    cases hMem
  | cons c rest =>
    have hMem : c ∈ (t.filter (m ≤ ·)).sort (· ≤ ·) := hSort ▸ List.mem_cons_self
    obtain ⟨hc, hLe⟩ := Finset.mem_filter.mp ((Finset.mem_sort _).mp hMem)
    refine List.cons_lt_cons_iff.mpr (.inl (lt_of_le_of_ne hLe ?_))
    rintro rfl
    exact h.not_mem hc

theorem FirstDiff.sort_le_of_forall (h : FirstDiff s t m) (hAll : ∀ b ∈ t, b ≤ m) :
    t.sort (· ≤ ·) ≤ s.sort (· ≤ ·) := by
  have hNone : t.filter (m ≤ ·) = ∅ := by
    refine Finset.filter_eq_empty_iff.mpr fun b hb hLe => h.not_mem ?_
    rwa [le_antisymm hLe (hAll b hb)]
  rw [sort_split s m, sort_split t m, h.filter_lt, hNone, Finset.sort_empty, List.append_nil]
  refine le_of_lt ?_
  nth_rewrite 1 [← List.append_nil (Finset.sort _ _)]
  apply append_lt_append
  rw [h.sort_filter_le]
  exact List.nil_lt_cons _ _

theorem exists_firstDiff (hNe : s ≠ t) : ∃ m, FirstDiff s t m ∨ FirstDiff t s m := by
  have hDiff : (symmDiff s t).Nonempty := by
    rw [Finset.nonempty_iff_ne_empty, Ne, ← Finset.bot_eq_empty, symmDiff_eq_bot]
    exact hNe
  have hBelow : ∀ a < (symmDiff s t).min' hDiff, a ∈ s ↔ a ∈ t := by
    intro a ha
    by_contra hMem
    refine absurd ((symmDiff s t).min'_le a ?_) (not_le.mpr ha)
    rw [Finset.mem_symmDiff]
    tauto
  obtain ⟨hs, ht⟩ | ⟨ht, hs⟩ := Finset.mem_symmDiff.mp ((symmDiff s t).min'_mem hDiff)
  · exact ⟨_, .inl ⟨hs, ht, hBelow⟩⟩
  · exact ⟨_, .inr ⟨ht, hs, fun a ha => (hBelow a ha).symm⟩⟩

theorem exists_firstDiff_of_sort_lt (hLt : s.sort (· ≤ ·) < t.sort (· ≤ ·)) (hSubset : ¬ s ⊆ t) :
    ∃ m, FirstDiff s t m ∧ ∃ b ∈ t, m < b := by
  have hNe : s ≠ t := by
    rintro rfl
    exact lt_irrefl _ hLt
  obtain ⟨m, h | h⟩ := exists_firstDiff hNe
  · by_contra hNone
    push Not at hNone
    exact absurd (h.sort_le_of_forall fun b hb => hNone m h b hb) (not_le.mpr hLt)
  · -- `s` would hold nothing above the first difference, hence be contained in `t`
    refine absurd (fun a ha => ?_) hSubset
    obtain hBelow | rfl | hAbove := lt_trichotomy a m
    · exact (h.agree a hBelow).mpr ha
    · exact h.mem
    · exact absurd (h.sort_lt ha hAbove) (lt_asymm hLt)

theorem sort_union_lt (hs : Disjoint s d) (hLt : s.sort (· ≤ ·) < t.sort (· ≤ ·))
    (hSubset : ¬ s ⊆ t) : (s ∪ d).sort (· ≤ ·) < (t ∪ d).sort (· ≤ ·) := by
  obtain ⟨m, h, b, hb, hmb⟩ := exists_firstDiff_of_sort_lt hLt hSubset
  have hUnion : FirstDiff (s ∪ d) (t ∪ d) m := by
    refine ⟨Finset.mem_union_left d h.mem, ?_, fun a ha => ?_⟩
    · rw [Finset.mem_union]
      rintro (hm | hm)
      · exact h.not_mem hm
      · exact Finset.disjoint_left.mp hs h.mem hm
    · rw [Finset.mem_union, Finset.mem_union, h.agree a ha]
  exact hUnion.sort_lt (Finset.mem_union_left d hb) hmb

end F1r3Node.Lib.SortedLex
