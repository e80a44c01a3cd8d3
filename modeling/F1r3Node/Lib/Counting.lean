import Mathlib.Algebra.BigOperators.Group.List.Basic
import Mathlib.Algebra.Ring.Int.Defs
import Mathlib.Data.List.Count

/-! # Counts and weights of lists

A walk over a finite list whose steps leave fewer and fewer elements ahead of it ends. Two parts of a list that
weigh more than the list between them have an element in common.
-/

namespace F1r3Node.Lib

theorem countP_lt_countP {α : Type*} {l : List α} {p q : α → Bool} (hImp : ∀ a ∈ l, q a = true → p a = true) {a : α}
    (ha : a ∈ l) (hp : p a = true) (hq : q a = false) : l.countP q < l.countP p := by
  induction l with
  | nil => cases ha
  | cons b l ih =>
    obtain ⟨hHead, hTail⟩ := List.forall_mem_cons.mp hImp
    rw [List.countP_cons, List.countP_cons]
    rcases List.mem_cons.mp ha with rfl | hMem
    · have hLe := List.countP_mono_left hTail
      rw [hp, hq, if_pos rfl, if_neg Bool.false_ne_true]
      omega
    · have hLt := ih hTail hMem
      cases hb : q b with
      | false =>
        rw [if_neg Bool.false_ne_true]
        omega
      | true =>
        rw [hHead hb]
        omega

theorem exists_of_sum_lt {α : Type*} {l : List α} {weight : α → Int} {p q : α → Bool}
    (hNonneg : ∀ a ∈ l, 0 ≤ weight a)
    (h : (l.map weight).sum < ((l.filter p).map weight).sum + ((l.filter q).map weight).sum) :
    ∃ a ∈ l, p a = true ∧ q a = true := by
  induction l with
  | nil => simp at h
  | cons b l ih =>
    obtain ⟨hHead, hTail⟩ := List.forall_mem_cons.mp hNonneg
    by_cases hBoth : p b = true ∧ q b = true
    · exact ⟨b, List.mem_cons_self, hBoth⟩
    · -- the head counts at most once
      have hRest : (l.map weight).sum < ((l.filter p).map weight).sum + ((l.filter q).map weight).sum := by
        rw [List.filter_cons, List.filter_cons, List.map_cons, List.sum_cons] at h
        cases hp : p b <;> cases hq : q b <;> simp [hp, hq] at h hBoth <;> omega
      obtain ⟨a, ha, hpq⟩ := ih hTail hRest
      exact ⟨a, List.mem_cons_of_mem b ha, hpq⟩

theorem sum_filter_le {α : Type*} {l : List α} {weight : α → Int} {p q : α → Bool} (hNonneg : ∀ a ∈ l, 0 ≤ weight a)
    (hImp : ∀ a ∈ l, p a = true → q a = true) :
    ((l.filter p).map weight).sum ≤ ((l.filter q).map weight).sum := by
  induction l with
  | nil => simp
  | cons b l ih =>
    obtain ⟨hHead, hTail⟩ := List.forall_mem_cons.mp hNonneg
    obtain ⟨hImpHead, hImpTail⟩ := List.forall_mem_cons.mp hImp
    have hRest := ih hTail hImpTail
    rw [List.filter_cons, List.filter_cons]
    cases hp : p b <;> cases hq : q b <;> simp [hp, hq] at hImpHead ⊢ <;> omega

end F1r3Node.Lib
