import Mathlib.Data.List.Count
import Mathlib.Data.List.MinMax
import Mathlib.Algebra.BigOperators.Group.List.Basic
import Mathlib.Algebra.Ring.Nat

/-! # Netting additions against removals

Two changes of one datum are combined by the higher multiplicity on each side, and then the sides cancel: this is not
associative.
-/

namespace F1r3Node.Lib.Netting

def net (x y : Nat × Nat) : Nat × Nat := (max x.1 y.1 - max x.2 y.2, max x.2 y.2 - max x.1 y.1)

variable {α : Type*} {f : α → Nat} {l l' : List α}

def most (f : α → Nat) (l : List α) : Nat := (l.map f).foldr max 0

@[simp] theorem most_cons (f : α → Nat) (a : α) (l : List α) : most f (a :: l) = max (f a) (most f l) := rfl

theorem most_le_iff {n : Nat} : most f l ≤ n ↔ ∀ a ∈ l, f a ≤ n := by
  induction l with
  | nil => simp [most]
  | cons a l ih => simp [ih]

theorem le_most {a : α} (ha : a ∈ l) : f a ≤ most f l := most_le_iff.mp le_rfl a ha

theorem most_eq_zero : most f l = 0 ↔ ∀ a ∈ l, f a = 0 := by
  rw [← Nat.le_zero, most_le_iff]
  simp

theorem most_eq_of_same (h : ∀ a ∈ l, ∃ b ∈ l', f b = f a) (h' : ∀ b ∈ l', ∃ a ∈ l, f a = f b) :
    most f l = most f l' := by
  refine le_antisymm (most_le_iff.mpr fun a ha => ?_) (most_le_iff.mpr fun b hb => ?_)
  · obtain ⟨b, hb, hEq⟩ := h a ha
    exact hEq ▸ le_most hb
  · obtain ⟨a, ha, hEq⟩ := h' b hb
    exact hEq ▸ le_most ha

def Quiet (l : List (Nat × Nat)) : Prop :=
  (∀ x ∈ l, x.2 = 0) ∨ (∀ x ∈ l, x.1 = 0) ∨ l.countP (0 < ·.1) ≤ 1 ∧ l.countP (0 < ·.2) ≤ 1

theorem Quiet.sublist {l l' : List (Nat × Nat)} (h : Quiet l) (hSub : l'.Sublist l) : Quiet l' := by
  obtain hNone | hNone | ⟨hAdd, hRemove⟩ := h
  · exact .inl fun x hx => hNone x (hSub.subset hx)
  · exact .inr (.inl fun x hx => hNone x (hSub.subset hx))
  · exact .inr (.inr ⟨hSub.countP_le.trans hAdd, hSub.countP_le.trans hRemove⟩)

theorem Quiet.perm {l l' : List (Nat × Nat)} (h : Quiet l) (hPerm : l'.Perm l) : Quiet l' := by
  obtain hNone | hNone | ⟨hAdd, hRemove⟩ := h
  · exact .inl fun x hx => hNone x (hPerm.subset hx)
  · exact .inr (.inl fun x hx => hNone x (hPerm.subset hx))
  · exact .inr (.inr ⟨(hPerm.countP_eq _).trans_le hAdd, (hPerm.countP_eq _).trans_le hRemove⟩)

theorem eq_zero_or_most_eq_zero {f : α → Nat} {a : α} (h : (a :: l).countP (0 < f ·) ≤ 1) :
    f a = 0 ∨ most f l = 0 := by
  obtain hZero | hPos := Nat.eq_zero_or_pos (f a)
  · exact .inl hZero
  · refine .inr (most_eq_zero.mpr fun b hb => Nat.eq_zero_of_not_pos fun hbPos => ?_)
    rw [List.countP_cons_of_pos (by simpa using hPos)] at h
    have hCount : 0 < l.countP (0 < f ·) := List.countP_pos_iff.mpr ⟨b, hb, by simpa using hbPos⟩
    omega

theorem max_eq_add {m n : Nat} (h : m = 0 ∨ n = 0) : max m n = m + n := by
  obtain rfl | rfl := h
  · rw [Nat.zero_max, Nat.zero_add]
  · rw [Nat.max_zero, Nat.add_zero]

variable {x : Nat × Nat}

theorem foldl_net_of_single {l : List (Nat × Nat)} (hAdd : l.countP (0 < ·.1) ≤ 1)
    (hRemove : l.countP (0 < ·.2) ≤ 1) (hx : x.1 = 0 ∨ x.2 = 0)
    (hxAdd : x.1 = 0 ∨ most Prod.fst l = 0) (hxRemove : x.2 = 0 ∨ most Prod.snd l = 0) :
    l.foldl net x = (x.1 + most Prod.fst l - (x.2 + most Prod.snd l),
      x.2 + most Prod.snd l - (x.1 + most Prod.fst l)) := by
  induction l generalizing x with
  | nil =>
    simp only [List.foldl_nil, most, List.map_nil, List.foldr_nil]
    ext <;> dsimp only <;> omega
  | cons y l ih =>
    have hyAdd := eq_zero_or_most_eq_zero hAdd
    have hyRemove := eq_zero_or_most_eq_zero hRemove
    rw [most_cons, max_eq_add hyAdd] at hxAdd ⊢
    rw [most_cons, max_eq_add hyRemove] at hxRemove ⊢
    have hNet : net x y = (x.1 + y.1 - (x.2 + y.2), x.2 + y.2 - (x.1 + y.1)) := by
      rw [net, max_eq_add (hxAdd.imp_right Nat.eq_zero_of_add_eq_zero_right),
        max_eq_add (hxRemove.imp_right Nat.eq_zero_of_add_eq_zero_right)]
    have hTail := List.sublist_cons_self y l
    rw [List.foldl_cons, hNet, ih (hTail.countP_le.trans hAdd) (hTail.countP_le.trans hRemove)]
    · ext <;> dsimp only <;> omega
    · dsimp only
      omega
    · dsimp only
      omega
    · dsimp only
      omega

theorem foldl_net_of_no_removal {l : List (Nat × Nat)} (h : ∀ y ∈ x :: l, y.2 = 0) :
    l.foldl net x = (most Prod.fst (x :: l), 0) := by
  induction l generalizing x with
  | nil =>
    simp only [List.mem_singleton, forall_eq] at h
    ext <;> simp [most, h]
  | cons y l ih =>
    simp only [List.forall_mem_cons] at h
    rw [List.foldl_cons, ih]
    · simp only [most_cons, net, h.1, h.2.1]
      rw [Nat.max_self, Nat.sub_zero, Nat.max_assoc]
    · simp only [List.forall_mem_cons, net, h.1, h.2.1]
      exact ⟨by omega, h.2.2⟩

theorem foldl_net_swap (l : List (Nat × Nat)) (x : Nat × Nat) :
    (l.map Prod.swap).foldl net x.swap = (l.foldl net x).swap := by
  induction l generalizing x with
  | nil => rfl
  | cons y l ih => exact ih (net x y)

theorem foldl_net_of_no_addition {l : List (Nat × Nat)} (h : ∀ y ∈ x :: l, y.1 = 0) :
    l.foldl net x = (0, most Prod.snd (x :: l)) := by
  have hSwapped : ∀ y ∈ x.swap :: l.map Prod.swap, y.2 = 0 := by
    rw [← List.map_cons]
    intro y hy
    obtain ⟨z, hz, rfl⟩ := List.mem_map.mp hy
    exact h z hz
  have hFold := foldl_net_of_no_removal hSwapped
  rw [foldl_net_swap, ← List.map_cons, most, List.map_map] at hFold
  exact congrArg Prod.swap hFold

theorem foldl_net {l : List (Nat × Nat)} (hQuiet : Quiet (x :: l)) (hx : x.1 = 0 ∨ x.2 = 0) :
    l.foldl net x = (most Prod.fst (x :: l) - most Prod.snd (x :: l),
      most Prod.snd (x :: l) - most Prod.fst (x :: l)) := by
  obtain hNone | hNone | ⟨hAdd, hRemove⟩ := hQuiet
  · rw [foldl_net_of_no_removal hNone, most_eq_zero.mpr hNone, Nat.sub_zero, Nat.zero_sub]
  · rw [foldl_net_of_no_addition hNone, most_eq_zero.mpr hNone, Nat.sub_zero, Nat.zero_sub]
  · have hTail := List.sublist_cons_self x l
    have hxAdd := eq_zero_or_most_eq_zero hAdd
    have hxRemove := eq_zero_or_most_eq_zero hRemove
    rw [most_cons, most_cons, max_eq_add hxAdd, max_eq_add hxRemove]
    exact foldl_net_of_single (hTail.countP_le.trans hAdd) (hTail.countP_le.trans hRemove) hx hxAdd hxRemove

def OneSided (x : Nat × Nat) : Prop := x.1 = 0 ∨ x.2 = 0

theorem most_append (f : α → Nat) (l l' : List α) : most f (l ++ l') = max (most f l) (most f l') := by
  induction l with
  | nil => exact (Nat.zero_max _).symm
  | cons a l ih => rw [List.cons_append, most_cons, ih, most_cons, Nat.max_assoc]

theorem most_append_singleton (f : α → Nat) (l : List α) (a : α) : most f (l ++ [a]) = max (most f l) (f a) := by
  rw [most_append, most_cons, show most f [] = 0 from rfl, Nat.max_zero]

theorem net_zero (h : OneSided x) : net (0, 0) x = x := by
  obtain ⟨a, r⟩ := x
  unfold OneSided at h
  simp only [net, Prod.mk.injEq] at h ⊢
  omega

theorem foldl_net_bounds {l : List (Nat × Nat)} (h : ∀ x ∈ l, OneSided x) :
    OneSided (l.foldl net (0, 0)) ∧ (l.foldl net (0, 0)).2 ≤ most Prod.snd l ∧
      (l.foldl net (0, 0)).2 + most Prod.fst l ≤ (l.foldl net (0, 0)).1 + (l.map Prod.snd).sum := by
  induction l using List.reverseRecOn with
  | nil => exact ⟨.inl rfl, Nat.zero_le _, Nat.le_refl _⟩
  | append_singleton l x ih =>
    obtain ⟨hSided, hMost, hSum⟩ := ih fun y hy => h y (List.mem_append_left _ hy)
    have hx := h x (by simp)
    rw [List.foldl_append, List.foldl_cons, List.foldl_nil, most_append_singleton, most_append_singleton,
      List.map_append, List.sum_append, List.map_singleton, List.sum_singleton]
    generalize l.foldl net (0, 0) = s at hSided hMost hSum ⊢
    unfold OneSided at hSided hx ⊢
    simp only [net]
    omega

theorem foldl_net_removals {l : List (Nat × Nat)} (h : ∀ x ∈ l, x.1 = 0) (n : Nat) :
    l.foldl net (n, 0) = (n - (l.map Prod.snd).sum, 0) ∧ (l.map Prod.snd).sum ≤ n ∨ (l.foldl net (n, 0)).1 = 0 := by
  induction l using List.reverseRecOn with
  | nil => exact .inl ⟨rfl, Nat.zero_le n⟩
  | append_singleton l x ih =>
    have hx := h x (by simp)
    rw [List.foldl_append, List.foldl_cons, List.foldl_nil, List.map_append, List.sum_append, List.map_singleton,
      List.sum_singleton]
    obtain ⟨hEq, hLe⟩ | hZero := ih fun y hy => h y (List.mem_append_left _ hy)
    · rw [hEq]
      simp only [net, hx, Prod.mk.injEq]
      omega
    · simp only [net, hx, hZero]
      omega

theorem most_perm {l l' : List α} (h : l.Perm l') : most f l = most f l' :=
  most_eq_of_same (fun a ha => ⟨a, h.mem_iff.mp ha, rfl⟩) fun b hb => ⟨b, h.mem_iff.mpr hb, rfl⟩

theorem exists_eq_most {l : List α} (h : 0 < most f l) : ∃ a ∈ l, f a = most f l := by
  induction l with
  | nil => exact absurd h (Nat.lt_irrefl 0)
  | cons a l ih =>
    rw [most_cons] at h ⊢
    obtain hLe | hLt := Nat.le_total (most f l) (f a)
    · exact ⟨a, List.mem_cons_self, (Nat.max_eq_left hLe).symm⟩
    · rw [Nat.max_eq_right hLt] at h ⊢
      obtain ⟨b, hb, hEq⟩ := ih h
      exact ⟨b, List.mem_cons_of_mem a hb, hEq⟩

theorem exists_worst_order {l : List α} {change : α → Nat × Nat} (h : ∀ a ∈ l, OneSided (change a)) {bound : Nat}
    (hMost : bound < most (fun a => (change a).2) l)
    (hSum : bound + most (fun a => (change a).1) l < (l.map fun a => (change a).2).sum) :
    ∃ order : List α, order.Perm l ∧ bound < ((order.map change).foldl net (0, 0)).2 := by
  classical
  obtain ⟨m, hm, hmMost⟩ := exists_eq_most (Nat.lt_of_le_of_lt (Nat.zero_le bound) hMost)
  let rest := l.erase m
  have hRest : (m :: rest).Perm l := (List.perm_cons_erase hm).symm
  let adding := rest.filter fun a => (change a).2 = 0
  let removing := rest.filter fun a => ¬ (change a).2 = 0
  have hParts : (adding ++ removing).Perm rest := by
    have hFilter := List.filter_append_perm (fun a => decide ((change a).2 = 0)) rest
    simpa [adding, removing] using hFilter
  have hOrder : (adding ++ removing ++ [m]).Perm l :=
    (List.perm_append_singleton m _).trans ((hParts.cons m).trans hRest)
  have hSided : ∀ a ∈ rest, OneSided (change a) := fun a ha => h a (List.mem_of_mem_erase ha)
  have hmZero : (change m).1 = 0 := (h m hm).resolve_right (by omega)
  have hAdding : ∀ a ∈ adding, (change a).2 = 0 := fun a ha => by simpa using (List.mem_filter.mp ha).2
  have hRemoving : ∀ a ∈ removing, (change a).1 = 0 := fun a ha =>
    (hSided a (List.mem_of_mem_filter ha)).resolve_right (by simpa using (List.mem_filter.mp ha).2)
  have hAdded : (adding.map change).foldl net (0, 0) = (most (fun a => (change a).1) l, 0) := by
    have hNoRemoval : ∀ y ∈ (0, 0) :: adding.map change, y.2 = 0 := by
      refine List.forall_mem_cons.mpr ⟨rfl, fun y hy => ?_⟩
      obtain ⟨a, ha, rfl⟩ := List.mem_map.mp hy
      exact hAdding a ha
    have hNone : most (fun a => (change a).1) removing = 0 := most_eq_zero.mpr hRemoving
    rw [foldl_net_of_no_removal hNoRemoval, most_cons, Nat.zero_max, ← most_perm hOrder, most_append_singleton, hmZero,
      Nat.max_zero, most_append, hNone, Nat.max_zero, most, List.map_map]
    rfl
  have hTotal : (l.map fun a => (change a).2).sum = (removing.map fun a => (change a).2).sum + (change m).2 := by
    rw [← (hOrder.map fun a => (change a).2).sum_eq, List.map_append, List.map_append, List.sum_append, List.sum_append,
      List.map_singleton, List.sum_singleton]
    have hZero : (adding.map fun a => (change a).2).sum = 0 := List.sum_eq_zero fun r hr => by
      obtain ⟨a, ha, rfl⟩ := List.mem_map.mp hr
      exact hAdding a ha
    rw [hZero, Nat.zero_add]
  refine ⟨_, hOrder, ?_⟩
  rw [List.map_append, List.map_append, List.foldl_append, List.foldl_append, hAdded, List.map_singleton,
    List.foldl_cons, List.foldl_nil]
  have hRemovingMap : ∀ y ∈ removing.map change, y.1 = 0 := by
    intro y hy
    obtain ⟨a, ha, rfl⟩ := List.mem_map.mp hy
    exact hRemoving a ha
  have hMap : ((removing.map change).map Prod.snd).sum = (removing.map fun a => (change a).2).sum := by
    rw [List.map_map]
    rfl
  obtain ⟨hEq, hLe⟩ | hZero := foldl_net_removals hRemovingMap (most (fun a => (change a).1) l)
  · rw [hEq]
    simp only [net, hmZero]
    omega
  · simp only [net, hmZero, hZero]
    omega

theorem foldl_net_le_iff {l : List α} {change : α → Nat × Nat} (h : ∀ a ∈ l, OneSided (change a)) (bound : Nat) :
    (∀ order : List α, order.Perm l → ((order.map change).foldl net (0, 0)).2 ≤ bound) ↔
      (l.map fun a => (change a).2).sum ≤ bound + most (fun a => (change a).1) l ∨
        most (fun a => (change a).2) l ≤ bound := by
  constructor
  · intro hOrders
    by_contra hNot
    push Not at hNot
    obtain ⟨order, hPerm, hMore⟩ := exists_worst_order h hNot.2 hNot.1
    exact absurd (hOrders order hPerm) (Nat.not_le.mpr hMore)
  · intro hBound order hPerm
    have hSidedMap : ∀ y ∈ order.map change, OneSided y := by
      intro y hy
      obtain ⟨a, ha, rfl⟩ := List.mem_map.mp hy
      exact h a (hPerm.mem_iff.mp ha)
    obtain ⟨hSided, hMost, hSum⟩ := foldl_net_bounds hSidedMap
    have hMap : ∀ side : Nat × Nat → Nat, most side (order.map change) = most (fun a => side (change a)) l := by
      intro side
      rw [← most_perm hPerm, most, List.map_map]
      rfl
    have hSums : ((order.map change).map Prod.snd).sum = (l.map fun a => (change a).2).sum := by
      rw [List.map_map]
      exact (hPerm.map _).sum_eq
    rw [hMap] at hMost
    rw [hMap, hSums] at hSum
    unfold OneSided at hSided
    omega

end F1r3Node.Lib.Netting
