import Mathlib.Data.Multiset.AddSub
import Mathlib.Data.List.ReduceOption

/-! # Erasing ascending positions one after another

Of ascending positions `i₀ < i₁ < …` the erasures take what stood at `i₀`, `i₁ + 1`, `i₂ + 2` and so on.
-/

namespace F1r3Node.Lib

variable {α : Type*}

def eraseAll (positions : List Nat) (l : List α) : List α := positions.foldl List.eraseIdx l

def meant (positions : List Nat) (l : List α) : List (Option α) := positions.map fun i => l[i]?

def shifted (positions : List Nat) (l : List α) : List (Option α) :=
  positions.mapIdx fun j i => l[i + j]?

theorem coe_eraseIdx (l : List α) (i : Nat) :
    ((l.eraseIdx i : List α) : Multiset α) + ↑(l[i]?.toList) = ↑l := by
  by_cases h : i < l.length
  · rw [List.getElem?_eq_getElem h]
    rw [Multiset.coe_add]
    apply Multiset.coe_eq_coe.mpr
    exact List.perm_append_comm.trans (List.getElem_cons_eraseIdx_perm h)
  · have hLe := Nat.le_of_not_lt h
    simp [List.eraseIdx_of_length_le hLe, List.getElem?_eq_none hLe]

variable {positions : List Nat}

theorem shifted_cons {i : Nat} (hAfter : ∀ j ∈ positions, i < j) (l : List α) :
    shifted (i :: positions) l = l[i]? :: shifted positions (l.eraseIdx i) := by
  unfold shifted
  rw [List.mapIdx_cons]
  refine congrArg₂ List.cons rfl (List.mapIdx_eq_mapIdx_iff.mpr ?_)
  intro k hk
  have hLater := hAfter _ (List.getElem_mem hk)
  rw [List.getElem?_eraseIdx_of_ge (by omega), Nat.add_assoc]

theorem coe_eraseAll_add_shifted (hAscending : positions.Pairwise (· < ·))
    (l : List α) :
    ((eraseAll positions l : List α) : Multiset α) + ↑(shifted positions l).reduceOption = ↑l := by
  induction positions generalizing l with
  | nil => simp [eraseAll, shifted]
  | cons i positions ih =>
    obtain ⟨hAfter, hTail⟩ := List.pairwise_cons.mp hAscending
    have hRest := ih hTail (l.eraseIdx i)
    rw [shifted_cons hAfter, ← coe_eraseIdx l i, ← hRest]
    change ((eraseAll positions (l.eraseIdx i) : List α) : Multiset α) + _ = _
    cases l[i]? with
    | none => simp
    | some x =>
      rw [List.reduceOption_cons_of_some, ← Multiset.cons_coe, Multiset.add_cons, Option.toList_some,
        Multiset.coe_singleton, Multiset.add_comm _ {x}, Multiset.singleton_add]

theorem perm_of_reduceOption {xs ys : List (Option α)} (hLength : xs.length = ys.length)
    (hSome : none ∉ ys) (hPerm : xs.reduceOption.Perm ys.reduceOption) : xs.Perm ys := by
  have hAll : ∀ {zs : List (Option α)}, zs.length = zs.reduceOption.length →
      zs = zs.reduceOption.map some := by
    intro zs hFull
    induction zs with
    | nil => rfl
    | cons z zs ih =>
      cases z with
      | none =>
        have hLe := List.reduceOption_length_le zs
        rw [List.reduceOption_cons_of_none, List.length_cons] at hFull
        omega
      | some z =>
        rw [List.reduceOption_cons_of_some, List.length_cons, List.length_cons] at hFull
        rw [List.reduceOption_cons_of_some, List.map_cons, ← ih (by omega)]
  have hYs : ys.length = ys.reduceOption.length := by
    clear hPerm hLength
    induction ys with
    | nil => rfl
    | cons y ys ih =>
      rw [List.mem_cons, not_or] at hSome
      cases y with
      | none => exact absurd rfl hSome.1
      | some y => rw [List.reduceOption_cons_of_some, List.length_cons, List.length_cons, ih hSome.2]
  rw [hAll hYs, hAll (hLength.trans (hYs.trans hPerm.length_eq.symm))]
  exact hPerm.map some

variable {l : List α}

theorem none_notMem_meant (hRange : ∀ i ∈ positions, i < l.length) :
    none ∉ meant positions l := by
  simp only [meant, List.mem_map, not_exists, not_and]
  intro i hi
  rw [List.getElem?_eq_getElem (hRange i hi)]
  exact Option.some_ne_none _

theorem coe_eraseAll_add_meant_iff (hAscending : positions.Pairwise (· < ·))
    (hRange : ∀ i ∈ positions, i < l.length) :
    ((eraseAll positions l : List α) : Multiset α) + ↑(meant positions l).reduceOption = ↑l ↔
      (shifted positions l).Perm (meant positions l) := by
  have hShifted := coe_eraseAll_add_shifted hAscending l
  have hSome := none_notMem_meant hRange
  constructor
  · intro hMeant
    apply perm_of_reduceOption (by simp [shifted, meant]) hSome
    apply Multiset.coe_eq_coe.mp
    exact Multiset.add_right_inj.mp (hShifted.trans hMeant.symm)
  · intro hPerm
    rw [← hShifted]
    congr 1
    exact Multiset.coe_eq_coe.mpr (hPerm.symm.filterMap id)

theorem shifted_perm_meant_of_length_le_one (hLength : positions.length ≤ 1)
    (l : List α) : (shifted positions l).Perm (meant positions l) := by
  match positions with
  | [] => exact .refl _
  | [i] => exact .refl _

theorem le_getElem_of_ascending (hAscending : positions.Pairwise (· < ·)) (j : Nat)
    (hj : j < positions.length) : j ≤ positions[j] := by
  induction j with
  | zero => exact Nat.zero_le _
  | succ j ih =>
    have hBefore := ih (by omega)
    have hLt := List.pairwise_iff_getElem.mp hAscending j (j + 1) (by omega) hj (by omega)
    omega

theorem not_shifted_perm_meant (hAscending : positions.Pairwise (· < ·))
    (hRange : ∀ i ∈ positions, i < l.length) (hLength : positions.length = l.length)
    (hTwo : 2 ≤ l.length) : ¬ (shifted positions l).Perm (meant positions l) := by
  intro hPerm
  apply none_notMem_meant hRange
  apply hPerm.subset
  have hLast : positions.length - 1 < positions.length := by omega
  have hLe := le_getElem_of_ascending hAscending _ hLast
  rw [shifted, List.mem_mapIdx]
  exact ⟨positions.length - 1, hLast, List.getElem?_eq_none (by omega)⟩

end F1r3Node.Lib
