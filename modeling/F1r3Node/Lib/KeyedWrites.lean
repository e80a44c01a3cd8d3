import F1r3Node.Lib.Fallible
import Mathlib.Data.List.Nodup
import Mathlib.Data.List.ReduceOption

/-! # Writes at distinct addresses

A store is a function of addresses. Where a list of writes has distinct addresses, a written address
holds what was written there and any other address what it held before.
-/

namespace F1r3Node.Lib

section store

variable {L V : Type*} [DecidableEq L]

def applyWrites (store : L → V) (writes : List (L × V)) : L → V :=
  writes.foldl (fun store write => Function.update store write.1 write.2) store

theorem applyWrites_of_notMem {writes : List (L × V)} {l : L} (h : l ∉ writes.map Prod.fst) (store : L → V) :
    applyWrites store writes l = store l := by
  induction writes generalizing store with
  | nil => rfl
  | cons write writes ih =>
    rw [List.map_cons, List.mem_cons, not_or] at h
    have hRest : applyWrites (Function.update store write.1 write.2) writes l =
        Function.update store write.1 write.2 l := ih h.2 _
    exact hRest.trans (Function.update_of_ne h.1 _ _)

theorem applyWrites_of_mem {writes : List (L × V)} (hNodup : (writes.map Prod.fst).Nodup) {l : L} {v : V}
    (h : (l, v) ∈ writes) (store : L → V) : applyWrites store writes l = v := by
  induction writes generalizing store with
  | nil => exact absurd h List.not_mem_nil
  | cons write writes ih =>
    rw [List.map_cons, List.nodup_cons] at hNodup
    rcases List.mem_cons.mp h with rfl | hRest
    · exact (applyWrites_of_notMem hNodup.1 _).trans (Function.update_self _ _ _)
    · exact ih hNodup.2 hRest _

end store

section partialMap

variable {ε ι β κ : Type} {f : ι → Except ε (Option β)} {entries : List ι} {results : List (Option β)}

theorem sublist_of_mapM_ok (h : entries.mapM f = .ok results) (key : ι → κ) (key' : β → κ)
    (hKey : ∀ e ∈ entries, ∀ b, f e = .ok (some b) → key' b = key e) :
    (results.reduceOption.map key').Sublist (entries.map key) := by
  induction entries generalizing results with
  | nil =>
    obtain rfl := Except.ok.inj h
    exact List.Sublist.slnil
  | cons e entries ih =>
    rw [List.mapM_cons] at h
    obtain ⟨r, hHead, h⟩ := exists_of_bind_ok h
    obtain ⟨rest, hTail, h⟩ := exists_of_bind_ok h
    obtain rfl := Except.ok.inj h
    have hRest := ih hTail fun e' he' => hKey e' (List.mem_cons_of_mem e he')
    cases r with
    | none =>
      rw [List.reduceOption_cons_of_none]
      exact hRest.cons _
    | some b =>
      rw [List.reduceOption_cons_of_some, List.map_cons, List.map_cons, hKey e List.mem_cons_self b hHead]
      exact hRest.cons_cons _

theorem map_eq_of_mapM_ok {f : ι → Except ε β} {results : List β} (h : entries.mapM f = .ok results) (key : ι → κ)
    (key' : β → κ) (hKey : ∀ e ∈ entries, ∀ b, f e = .ok b → key' b = key e) :
    results.map key' = entries.map key := by
  induction entries generalizing results with
  | nil =>
    obtain rfl := Except.ok.inj h
    rfl
  | cons e entries ih =>
    rw [List.mapM_cons] at h
    obtain ⟨b, hHead, h⟩ := exists_of_bind_ok h
    obtain ⟨rest, hTail, h⟩ := exists_of_bind_ok h
    obtain rfl := Except.ok.inj h
    rw [List.map_cons, List.map_cons, hKey e List.mem_cons_self b hHead,
      ih hTail fun e' he' => hKey e' (List.mem_cons_of_mem e he')]

end partialMap

section keyed

variable {ι β κ : Type*} {entries : List ι} (key : ι → κ) {g : ι → List β} {p : β → Bool}

theorem countP_flatMap_of_nodup (hNodup : (entries.map key).Nodup) {e : ι} (he : e ∈ entries)
    (hOther : ∀ e' ∈ entries, key e' ≠ key e → ∀ b ∈ g e', p b = false) :
    (entries.flatMap g).countP p = (g e).countP p := by
  induction entries with
  | nil => exact absurd he List.not_mem_nil
  | cons e₀ entries ih =>
    rw [List.map_cons, List.nodup_cons] at hNodup
    rw [List.flatMap_cons, List.countP_append]
    rcases List.mem_cons.mp he with rfl | hRest
    · suffices hZero : (entries.flatMap g).countP p = 0 by rw [hZero, Nat.add_zero]
      rw [List.countP_eq_zero]
      intro b hb
      obtain ⟨e', he', hb⟩ := List.mem_flatMap.mp hb
      have hNe : key e' ≠ key e := fun hEq => hNodup.1 (hEq ▸ List.mem_map_of_mem he')
      rw [hOther e' (List.mem_cons_of_mem _ he') hNe b hb]
      exact Bool.false_ne_true
    · have hNe : key e₀ ≠ key e := fun hEq => hNodup.1 (hEq ▸ List.mem_map_of_mem hRest)
      have hZero : (g e₀).countP p = 0 := by
        rw [List.countP_eq_zero]
        intro b hb
        rw [hOther e₀ List.mem_cons_self hNe b hb]
        exact Bool.false_ne_true
      rw [hZero, Nat.zero_add]
      exact ih hNodup.2 hRest fun e' he' => hOther e' (List.mem_cons_of_mem _ he')

end keyed

end F1r3Node.Lib
