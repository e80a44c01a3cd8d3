import Mathlib.Algebra.Order.Group.Nat
import Mathlib.Algebra.BigOperators.Group.List.Basic

/-! # Multimaps that count their bindings

Keys and values are compared by an equivalence that may be coarser than equality; the first of several equivalent keys
or values is the one that is kept.
-/

namespace F1r3Node.Lib

structure Binding (κ ν : Type) where
  key : κ
  value : ν
  count : Nat
  deriving DecidableEq

structure MultisetMultiMap (κ ν : Type) where
  bindings : List (Binding κ ν)
  positive : ∀ b ∈ bindings, 0 < b.count

section

variable {κ ν : Type} [BEq κ] [BEq ν]

def Binding.same (b : Binding κ ν) (k : κ) (v : ν) : Bool := b.key == k && b.value == v

def addTo (k : κ) (v : ν) : List (Binding κ ν) → List (Binding κ ν)
  | [] => [⟨k, v, 1⟩]
  | b :: bs => if b.same k v then { b with count := b.count + 1 } :: bs else b :: addTo k v bs

def removeFrom (k : κ) (v : ν) : List (Binding κ ν) → List (Binding κ ν)
  | [] => []
  | b :: bs =>
    if b.same k v then
      if 1 < b.count then { b with count := b.count - 1 } :: bs else bs
    else b :: removeFrom k v bs

def countIn (k : κ) (v : ν) : List (Binding κ ν) → Nat
  | [] => 0
  | b :: bs => (if b.same k v then b.count else 0) + countIn k v bs

theorem positive_addTo {k : κ} {v : ν} {bs : List (Binding κ ν)} (h : ∀ b ∈ bs, 0 < b.count) :
    ∀ b ∈ addTo k v bs, 0 < b.count := by
  induction bs with
  | nil => simp [addTo]
  | cons b bs ih =>
    obtain ⟨hHead, hTail⟩ := List.forall_mem_cons.mp h
    rw [addTo]
    split_ifs
    · exact List.forall_mem_cons.mpr ⟨Nat.succ_pos _, hTail⟩
    · exact List.forall_mem_cons.mpr ⟨hHead, ih hTail⟩

theorem positive_removeFrom {k : κ} {v : ν} {bs : List (Binding κ ν)} (h : ∀ b ∈ bs, 0 < b.count) :
    ∀ b ∈ removeFrom k v bs, 0 < b.count := by
  induction bs with
  | nil => simp [removeFrom]
  | cons b bs ih =>
    obtain ⟨hHead, hTail⟩ := List.forall_mem_cons.mp h
    rw [removeFrom]
    split_ifs with _ hMany
    · exact List.forall_mem_cons.mpr ⟨Nat.sub_pos_of_lt hMany, hTail⟩
    · exact hTail
    · exact List.forall_mem_cons.mpr ⟨hHead, ih hTail⟩

end

namespace MultisetMultiMap

variable {κ ν : Type} [BEq κ] [BEq ν]

def empty : MultisetMultiMap κ ν := ⟨[], by simp⟩

def addBinding (m : MultisetMultiMap κ ν) (k : κ) (v : ν) : MultisetMultiMap κ ν :=
  ⟨addTo k v m.bindings, positive_addTo m.positive⟩

def removeBindingInPlace (m : MultisetMultiMap κ ν) (k : κ) (v : ν) : MultisetMultiMap κ ν :=
  ⟨removeFrom k v m.bindings, positive_removeFrom m.positive⟩

def isEmpty (m : MultisetMultiMap κ ν) : Bool := m.bindings.isEmpty

def values (m : MultisetMultiMap κ ν) (k : κ) : List ν :=
  (m.bindings.filter fun b => b.key == k).map Binding.value

/-- `get`: a key without bindings is absent. -/
def get? (m : MultisetMultiMap κ ν) (k : κ) : Option (List ν) :=
  if m.values k = [] then none else some (m.values k)

def count (m : MultisetMultiMap κ ν) (k : κ) (v : ν) : Nat := countIn k v m.bindings

def Binds (m : MultisetMultiMap κ ν) (k : κ) (v : ν) : Prop := ∃ b ∈ m.bindings, b.key = k ∧ b.value = v

variable {m : MultisetMultiMap κ ν} {k k' : κ} {v v' : ν}

omit [BEq κ] [BEq ν] in
theorem not_binds_empty : ¬ (empty : MultisetMultiMap κ ν).Binds k v := by
  rintro ⟨b, hMem, -⟩
  cases hMem

theorem binds_of_addBinding (h : (m.addBinding k v).Binds k' v') : m.Binds k' v' ∨ k' = k ∧ v' = v := by
  obtain ⟨b, hMem, rfl, rfl⟩ := h
  change b ∈ addTo k v m.bindings at hMem
  unfold Binds
  generalize m.bindings = bindings at hMem ⊢
  induction bindings with
  | nil =>
    obtain rfl := List.mem_singleton.mp hMem
    exact .inr ⟨rfl, rfl⟩
  | cons head bs ih =>
    rw [addTo] at hMem
    split_ifs at hMem
    · rcases List.mem_cons.mp hMem with rfl | hMem
      · exact .inl ⟨head, List.mem_cons_self, rfl, rfl⟩
      · exact .inl ⟨b, List.mem_cons_of_mem _ hMem, rfl, rfl⟩
    · rcases List.mem_cons.mp hMem with rfl | hMem
      · exact .inl ⟨b, List.mem_cons_self, rfl, rfl⟩
      · rcases ih hMem with ⟨b', hMem', hSame⟩ | hNew
        · exact .inl ⟨b', List.mem_cons_of_mem _ hMem', hSame⟩
        · exact .inr hNew

theorem binds_of_removeBinding (h : (m.removeBindingInPlace k v).Binds k' v') : m.Binds k' v' := by
  obtain ⟨b, hMem, rfl, rfl⟩ := h
  change b ∈ removeFrom k v m.bindings at hMem
  unfold Binds
  generalize m.bindings = bindings at hMem ⊢
  induction bindings with
  | nil => cases hMem
  | cons head bs ih =>
    rw [removeFrom] at hMem
    split_ifs at hMem
    · rcases List.mem_cons.mp hMem with rfl | hMem
      · exact ⟨head, List.mem_cons_self, rfl, rfl⟩
      · exact ⟨b, List.mem_cons_of_mem _ hMem, rfl, rfl⟩
    · exact ⟨b, List.mem_cons_of_mem _ hMem, rfl, rfl⟩
    · rcases List.mem_cons.mp hMem with rfl | hMem
      · exact ⟨b, List.mem_cons_self, rfl, rfl⟩
      · obtain ⟨b', hMem', hSame⟩ := ih hMem
        exact ⟨b', List.mem_cons_of_mem _ hMem', hSame⟩

omit [BEq ν] in
theorem binds_of_get? {vs : List ν} (h : m.get? k = some vs) (hMem : v ∈ vs) :
    ∃ k', (k' == k) = true ∧ m.Binds k' v := by
  rw [get?] at h
  split_ifs at h
  obtain rfl := Option.some.inj h
  obtain ⟨b, hFilter, rfl⟩ := List.mem_map.mp hMem
  obtain ⟨hIn, hKey⟩ := List.mem_filter.mp hFilter
  exact ⟨b.key, hKey, b, hIn, rfl, rfl⟩

omit [BEq ν] in
theorem eq_values_of_get? {vs : List ν} (h : m.get? k = some vs) : vs = m.values k := by
  rw [get?] at h
  split_ifs at h
  exact (Option.some.inj h).symm

section multiplicity

variable [EquivBEq κ] [EquivBEq ν]

theorem same_of_same {b : Binding κ ν} (h : b.same k v = true) : b.same k' v' = (k == k' && v == v') := by
  obtain ⟨hKey, hValue⟩ := (Bool.and_eq_true _ _).mp h
  rw [Binding.same, BEq.congr_left hKey, BEq.congr_left hValue]

theorem same_congr (b : Binding κ ν) (h : (k == k' && v == v') = true) : b.same k v = b.same k' v' := by
  obtain ⟨hKey, hValue⟩ := (Bool.and_eq_true _ _).mp h
  rw [Binding.same, Binding.same, BEq.congr_right hKey, BEq.congr_right hValue]

theorem countIn_addTo (bs : List (Binding κ ν)) :
    countIn k' v' (addTo k v bs) = countIn k' v' bs + if k == k' && v == v' then 1 else 0 := by
  induction bs with
  | nil => simp [addTo, countIn, Binding.same]
  | cons b bs ih =>
    rw [addTo]
    by_cases hSame : b.same k v = true
    · have hMore : countIn k' v' ({ b with count := b.count + 1 } :: bs) =
          (if b.same k' v' then b.count + 1 else 0) + countIn k' v' bs := rfl
      rw [if_pos hSame, hMore, countIn, same_of_same hSame]
      split_ifs <;> omega
    · rw [if_neg hSame, countIn, countIn, ih]
      omega

theorem countIn_removeFrom {bs : List (Binding κ ν)} (hPositive : ∀ b ∈ bs, 0 < b.count) :
    countIn k' v' (removeFrom k v bs) = countIn k' v' bs - if k == k' && v == v' then 1 else 0 := by
  induction bs with
  | nil => simp [removeFrom, countIn]
  | cons b bs ih =>
    obtain ⟨hHead, hTail⟩ := List.forall_mem_cons.mp hPositive
    rw [removeFrom]
    by_cases hSame : b.same k v = true
    · have hLess : countIn k' v' ({ b with count := b.count - 1 } :: bs) =
          (if b.same k' v' then b.count - 1 else 0) + countIn k' v' bs := rfl
      rw [if_pos hSame, countIn, apply_ite (countIn k' v'), hLess, same_of_same hSame]
      split_ifs <;> omega
    · rw [if_neg hSame, countIn, countIn, ih hTail]
      split_ifs with hHere hOther hOther
      · exact absurd ((same_congr b hOther).trans hHere) hSame
      · omega
      · omega
      · omega

theorem count_addBinding (m : MultisetMultiMap κ ν) :
    (m.addBinding k v).count k' v' = m.count k' v' + if k == k' && v == v' then 1 else 0 :=
  countIn_addTo m.bindings

theorem count_removeBindingInPlace (m : MultisetMultiMap κ ν) :
    (m.removeBindingInPlace k v).count k' v' = m.count k' v' - if k == k' && v == v' then 1 else 0 :=
  countIn_removeFrom m.positive

end multiplicity

theorem count_pos_iff (m : MultisetMultiMap κ ν) : 0 < m.count k v ↔ ∃ v' ∈ m.values k, (v' == v) = true := by
  have hCount : ∀ bs : List (Binding κ ν), (∀ b ∈ bs, 0 < b.count) →
      (0 < countIn k v bs ↔ ∃ v' ∈ (bs.filter fun b => b.key == k).map Binding.value, (v' == v) = true) := by
    intro bs hPositive
    induction bs with
    | nil => simp [countIn]
    | cons b bs ih =>
      obtain ⟨hHead, hTail⟩ := List.forall_mem_cons.mp hPositive
      rw [countIn, List.filter_cons, Binding.same]
      cases hKey : b.key == k with
      | false => simpa using ih hTail
      | true =>
        cases hValue : b.value == v with
        | false => simpa [hValue] using ih hTail
        | true => simpa [hValue] using Nat.add_pos_left hHead _
  exact hCount m.bindings m.positive

end MultisetMultiMap

theorem countP_beq_eraseP {α : Type} [BEq α] [EquivBEq α] (l : List α) (a b : α) :
    (l.eraseP (· == a)).countP (· == b) = l.countP (· == b) - if a == b then 1 else 0 := by
  induction l with
  | nil => simp
  | cons x l ih =>
    rw [List.eraseP_cons, List.countP_cons]
    cases hHere : x == a with
    | true =>
      rw [BEq.congr_left hHere]
      split_ifs <;> simp
    | false =>
      rw [cond_false, List.countP_cons, ih]
      split_ifs with hOther hSame hSame
      · have hBoth : (x == a) = true := BEq.trans hSame (BEq.symm hOther)
        rw [hHere] at hBoth
        cases hBoth
      all_goals omega

end F1r3Node.Lib
