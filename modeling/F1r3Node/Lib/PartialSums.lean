import Mathlib.Algebra.BigOperators.Group.List.Basic
import Mathlib.Algebra.Order.Ring.Int
import Mathlib.Data.List.Infix

/-! # Sums along the prefixes of a list

A list of lists is summed one element after another. If no inner list overshoots its own total on the
way, every partial sum lies between two sums over whole inner lists.
-/

namespace F1r3Node.Lib.PartialSums

variable {α β : Type}

theorem exists_of_prefix_flatMap {f : α → List β} {l : List α} {p : List β} (h : p <+: l.flatMap f) :
    p = l.flatMap f ∨ ∃ l' a p', l' ++ [a] <+: l ∧ p' <+: f a ∧ p = l'.flatMap f ++ p' := by
  induction l generalizing p with
  | nil => exact .inl (List.prefix_nil.mp h)
  | cons a l ih =>
    rw [List.flatMap_cons] at h
    obtain hInside | ⟨rest, rfl⟩ := List.prefix_or_prefix_of_prefix h (List.prefix_append (f a) (l.flatMap f))
    · exact .inr ⟨[], a, p, ⟨l, rfl⟩, hInside, rfl⟩
    · obtain rfl | ⟨l', b, p', hPrefix, hInside, rfl⟩ := ih ((List.prefix_append_right_inj (f a)).mp h)
      · exact .inl List.flatMap_cons.symm
      · refine .inr ⟨a :: l', b, p', List.cons_prefix_cons.mpr ⟨rfl, hPrefix⟩, hInside, ?_⟩
        rw [List.flatMap_cons, List.append_assoc]

theorem sum_flatMap (f : α → List β) (g : β → Int) (l : List α) :
    ((l.flatMap f).map g).sum = (l.map fun a => ((f a).map g).sum).sum := by
  induction l with
  | nil => rfl
  | cons a l ih => rw [List.flatMap_cons, List.map_append, List.sum_append, ih, List.map_cons, List.sum_cons]

theorem sum_filter {p : α → Bool} {g : α → Int} (h : ∀ a, p a = false → g a = 0) (l : List α) :
    ((l.filter p).map g).sum = (l.map g).sum := by
  induction l with
  | nil => rfl
  | cons a l ih =>
    cases hp : p a with
    | true => rw [List.filter_cons_of_pos hp, List.map_cons, List.map_cons, List.sum_cons, List.sum_cons, ih]
    | false => rw [List.filter_cons_of_neg (by simp [hp]), ih, List.map_cons, List.sum_cons, h a hp, zero_add]

def NoOvershoot (values : List Int) : Prop :=
  ∀ p, p <+: values → (0 ≤ p.sum ∧ p.sum ≤ values.sum) ∨ (values.sum ≤ p.sum ∧ p.sum ≤ 0)

theorem noOvershoot_of_atMostOne {values : List Int} (h : values.Pairwise fun a b => a = 0 ∨ b = 0) :
    NoOvershoot values := by
  induction values with
  | nil =>
    intro p hp
    rw [List.prefix_nil.mp hp]
    simp
  | cons a values ih =>
    obtain ⟨hHead, hTail⟩ := List.pairwise_cons.mp h
    intro p hp
    obtain rfl | ⟨q, rfl, hq⟩ := List.prefix_cons_iff.mp hp
    · rw [List.sum_nil]
      omega
    · rw [List.sum_cons, List.sum_cons]
      obtain rfl | hNe := eq_or_ne a 0
      · rw [zero_add, zero_add]
        exact ih hTail q hq
      · have hZero : ∀ {l : List Int}, (∀ b ∈ l, b = 0) → l.sum = 0 := fun hl => List.sum_eq_zero hl
        have hAll : ∀ b ∈ values, b = 0 := fun b hb => (hHead b hb).resolve_left hNe
        rw [hZero hAll, hZero fun b hb => hAll b (hq.subset hb)]
        omega

theorem exists_between {f : α → List Int} {l : List α} (h : ∀ a ∈ l, NoOvershoot (f a)) {p : List Int}
    (hp : p <+: l.flatMap f) : ∃ lower upper, lower <+: l ∧ upper <+: l ∧
      ((lower.map fun a => (f a).sum).sum ≤ p.sum ∧ p.sum ≤ (upper.map fun a => (f a).sum).sum) := by
  have hSum : ∀ l : List α, (l.flatMap f).sum = (l.map fun a => (f a).sum).sum := by
    intro l
    have hFlat := sum_flatMap f id l
    simpa using hFlat
  obtain rfl | ⟨l', a, p', hPrefix, hInside, rfl⟩ := exists_of_prefix_flatMap hp
  · exact ⟨l, l, List.prefix_rfl, List.prefix_rfl, (hSum l).symm.le, (hSum l).le⟩
  · have hBefore : l' <+: l := (List.prefix_append l' [a]).trans hPrefix
    have hTotal : ((l' ++ [a]).map fun a => (f a).sum).sum = (l'.map fun a => (f a).sum).sum + (f a).sum := by
      simp
    have hMem : a ∈ l := hPrefix.subset (by simp)
    obtain ⟨hLow, hHigh⟩ | ⟨hLow, hHigh⟩ := h a hMem p' hInside
    · refine ⟨l', l' ++ [a], hBefore, hPrefix, ?_⟩
      rw [List.sum_append, hSum, hTotal]
      omega
    · refine ⟨l' ++ [a], l', hPrefix, hBefore, ?_⟩
      rw [List.sum_append, hSum, hTotal]
      omega

theorem noOvershoot_flatMap {f : α → List Int} {l : List α} (h : ∀ a ∈ l, NoOvershoot (f a))
    (hTotals : NoOvershoot (l.map fun a => (f a).sum)) : NoOvershoot (l.flatMap f) := by
  intro p hp
  have hTotal : (l.flatMap f).sum = (l.map fun a => (f a).sum).sum := by simpa using sum_flatMap f id l
  obtain ⟨lower, upper, hLower, hUpper, hBetween⟩ := exists_between h hp
  have hLow := hTotals _ (hLower.map _)
  have hHigh := hTotals _ (hUpper.map _)
  rw [hTotal]
  omega

end F1r3Node.Lib.PartialSums
