import F1r3Node.History.RadixTree

/-! # The canonical tree of a finite map

A map from keys of one length to values determines one tree: a position with one occupied byte below it is merged with
its child.
-/

namespace F1r3Node.History

open Shared

abbrev KeyMap := Bytes → Option Bytes

def KeyMap.child (m : KeyMap) (i : UInt8) : KeyMap := fun k => m (i :: k)

def KeyMap.set (m : KeyMap) (k : Bytes) (v : Option Bytes) : KeyMap := Function.update m k v

theorem KeyMap.child_set_same (m : KeyMap) (i : UInt8) (k : Bytes) (v : Option Bytes) :
    (m.set (i :: k) v).child i = (m.child i).set k v := by
  funext l
  by_cases h : l = k <;> simp [KeyMap.child, KeyMap.set, h]

variable {i j : UInt8}

theorem KeyMap.child_set_of_ne (m : KeyMap) (h : j ≠ i) (k : Bytes) (v : Option Bytes) :
    (m.set (i :: k) v).child j = m.child j := by
  funext l
  simp [KeyMap.child, KeyMap.set, h]

variable {node : Node}

theorem mem_occupied : i ∈ node.occupied ↔ node i ≠ .emptyItem := by
  simp [Node.occupied, mem_allBytes]

theorem nodup_occupied (node : Node) : node.occupied.Nodup := nodup_allBytes.filter _

theorem occupied_eq_nil_iff : node.occupied = [] ↔ ∀ i, node i = .emptyItem := by
  rw [List.eq_nil_iff_forall_not_mem]
  simp only [mem_occupied, not_not]

theorem occupied_eq_singleton (hi : node i ≠ .emptyItem)
    (hOther : ∀ j, j ≠ i → node j = .emptyItem) : node.occupied = [i] := by
  apply List.perm_singleton.mp
  apply (List.perm_ext_iff_of_nodup (nodup_occupied node) (List.nodup_singleton i)).mpr
  intro j
  rw [mem_occupied, List.mem_singleton]
  exact ⟨fun hj => by_contra fun hNe => hj (hOther j hNe), fun hj => hj ▸ hi⟩

theorem eq_empty_of_occupied (h : node.occupied = [i]) (hj : j ≠ i) :
    node j = .emptyItem := by
  by_contra hNe
  have hMem := mem_occupied.mpr hNe
  rw [h, List.mem_singleton] at hMem
  exact hj hMem

theorem occupied_lt_two (h : ∀ j, j ≠ i → node j = .emptyItem) :
    node.occupied.length < 2 := by
  by_cases hi : node i = .emptyItem
  · have hNil : node.occupied = [] := occupied_eq_nil_iff.mpr fun j => by
      by_cases hj : j = i
      · rwa [hj]
      · exact h j hj
    simp [hNil]
  · simp [occupied_eq_singleton hi h]

theorem two_le_occupied (hij : i ≠ j) (hi : node i ≠ .emptyItem)
    (hj : node j ≠ .emptyItem) : 2 ≤ node.occupied.length := by
  have hSub : [i, j] ⊆ node.occupied := by
    intro x hx
    rcases List.mem_pair.mp hx with rfl | rfl
    · exact mem_occupied.mpr hi
    · exact mem_occupied.mpr hj
  exact (List.subperm_of_subset (by simp [hij]) hSub).length_le

theorem occupied_cases (node : Node) :
    node.occupied = [] ∨ (∃ i, node.occupied = [i]) ∨ 2 ≤ node.occupied.length := by
  rcases h : node.occupied with _ | ⟨i, _ | ⟨j, l⟩⟩
  · exact .inl rfl
  · exact .inr (.inl ⟨i, rfl⟩)
  · exact .inr (.inr (by simp))

@[simp] theorem Item.prepend_eq_empty_iff (pre : Bytes) (item : Item) :
    item.prepend pre = .emptyItem ↔ item = .emptyItem := by
  cases item <;> simp [Item.prepend]

@[simp] theorem Item.prepend_prepend (pre pre' : Bytes) (item : Item) :
    (item.prepend pre').prepend pre = item.prepend (pre ++ pre') := by
  cases item <;> simp [Item.prepend]

section

variable (ptr : Node → Bytes)

/-- The item that stands for a node below the prefix `pre`. -/
def compact (pre : Bytes) (node : Node) : Item :=
  match node.occupied with
  | [] => .emptyItem
  | [i] => (node i).prepend (pre ++ [i])
  | _ => .nodePtr pre (ptr node)

/-- The canonical item of a map on keys of length `n`. -/
def item : Nat → KeyMap → Item
  | 0, m =>
    match m [] with
    | none => .emptyItem
    | some v => .leaf [] v
  | n + 1, m => compact ptr [] fun i => item n (m.child i)

/-- The canonical node of a map on keys of length `n + 1`. -/
def canonicalNode (n : Nat) (m : KeyMap) : Node := fun i => item ptr n (m.child i)

def branches : Nat → KeyMap → Set Node
  | 0, _ => ∅
  | n + 1, m => { x | x = canonicalNode ptr n m ∧ 2 ≤ x.occupied.length } ∪
      { x | ∃ i, x ∈ branches n (m.child i) }

variable {ptr}

variable {pre : Bytes} {node : Node}

theorem compact_of_nil (h : node.occupied = []) :
    compact ptr pre node = .emptyItem := by
  rw [compact, h]

theorem compact_of_singleton {i : UInt8} (h : node.occupied = [i]) :
    compact ptr pre node = (node i).prepend (pre ++ [i]) := by
  rw [compact, h]

theorem compact_of_branching (h : 2 ≤ node.occupied.length) :
    compact ptr pre node = .nodePtr pre (ptr node) := by
  rw [compact]
  rcases hOcc : node.occupied with _ | ⟨i, _ | ⟨j, l⟩⟩
  · simp [hOcc] at h
  · simp [hOcc] at h
  · rfl

theorem compact_eq_empty_iff (pre : Bytes) (node : Node) :
    compact ptr pre node = .emptyItem ↔ ∀ i, node i = .emptyItem := by
  rw [← occupied_eq_nil_iff]
  rcases occupied_cases node with h | ⟨j, h⟩ | h
  · simp [compact_of_nil h, h]
  · have hj : node j ≠ .emptyItem := mem_occupied.mp (h ▸ List.mem_singleton_self j)
    simp [compact_of_singleton h, h, hj]
  · have hNe : node.occupied ≠ [] := fun hNil => by simp [hNil] at h
    simp [compact_of_branching h, hNe]

theorem item_succ (n : Nat) (m : KeyMap) : item ptr (n + 1) m = compact ptr [] (canonicalNode ptr n m) := rfl

variable {m m' : KeyMap}

theorem item_congr (n : Nat) (h : ∀ k : Bytes, k.length = n → m k = m' k) :
    item ptr n m = item ptr n m' := by
  induction n generalizing m m' with
  | zero => rw [item, item, h [] rfl]
  | succ n ih =>
    rw [item, item]
    congr 1
    funext i
    exact ih fun k hk => h (i :: k) (by simp [hk])

theorem canonicalNode_congr (n : Nat) (h : ∀ k : Bytes, k.length = n + 1 → m k = m' k) :
    canonicalNode ptr n m = canonicalNode ptr n m' := by
  funext i
  exact item_congr n fun k hk => h (i :: k) (by simp [hk])

theorem branches_congr (n : Nat) (h : ∀ k : Bytes, k.length = n → m k = m' k) :
    branches ptr n m = branches ptr n m' := by
  induction n generalizing m m' with
  | zero => rfl
  | succ n ih =>
    have hNode : canonicalNode ptr n m = canonicalNode ptr n m' := canonicalNode_congr n h
    have hChild : ∀ i, branches ptr n (m.child i) = branches ptr n (m'.child i) := fun i =>
      ih fun k hk => h (i :: k) (by simp [hk])
    rw [branches, branches, hNode]
    simp only [hChild]

theorem item_eq_empty_iff (n : Nat) (m : KeyMap) :
    item ptr n m = .emptyItem ↔ ∀ k : Bytes, k.length = n → m k = none := by
  induction n generalizing m with
  | zero =>
    rw [item]
    constructor
    · intro h k hk
      rw [List.eq_nil_of_length_eq_zero hk]
      cases hm : m [] with
      | none => rfl
      | some v => simp [hm] at h
    · intro h
      rw [h [] rfl]
  | succ n ih =>
    rw [item, compact_eq_empty_iff]
    simp only [ih]
    constructor
    · intro h k hk
      obtain ⟨i, l, rfl⟩ := List.exists_cons_of_length_eq_add_one hk
      exact h i l (by simpa using hk)
    · intro h i k hk
      exact h (i :: k) (by simp [hk])

theorem canonicalNode_set (n : Nat) (m : KeyMap) (i : UInt8) (k : Bytes) (v : Option Bytes) :
    canonicalNode ptr n (m.set (i :: k) v) =
      Function.update (canonicalNode ptr n m) i (item ptr n ((m.child i).set k v)) := by
  funext j
  by_cases hj : j = i
  · subst hj
    rw [Function.update_self, canonicalNode, KeyMap.child_set_same]
  · rw [Function.update_of_ne hj, canonicalNode, KeyMap.child_set_of_ne m hj, canonicalNode]

theorem canonicalNode_eq_emptyNode_iff (n : Nat) (m : KeyMap) :
    canonicalNode ptr n m = emptyNode ↔ ∀ k : Bytes, k.length = n + 1 → m k = none := by
  have hItem := @item_eq_empty_iff ptr (n + 1) m
  rw [← hItem, item_succ, compact_eq_empty_iff, funext_iff]
  rfl

variable {k v : Bytes}

theorem item_set_of_empty (n : Nat) (h : item ptr n m = .emptyItem)
    (hk : k.length = n) : item ptr n (m.set k (some v)) = .leaf k v := by
  induction n generalizing m k with
  | zero =>
    rw [List.eq_nil_of_length_eq_zero hk, item, KeyMap.set, Function.update_self]
  | succ n ih =>
    obtain ⟨i, l, rfl⟩ := List.exists_cons_of_length_eq_add_one hk
    have hEmpty : canonicalNode ptr n m = emptyNode := by
      funext j
      exact (compact_eq_empty_iff [] _).mp h j
    have hLeaf := ih (m := m.child i) (congrFun hEmpty i) (k := l) (by simpa using hk)
    rw [item_succ, canonicalNode_set, hEmpty, hLeaf]
    have hOcc : Node.occupied (Function.update emptyNode i (.leaf l v)) = [i] := by
      apply occupied_eq_singleton
      · simp
      · intro j hj
        rw [Function.update_of_ne hj]
        rfl
    rw [compact_of_singleton hOcc, Function.update_self]
    rfl

theorem branches_of_empty (n : Nat) (h : item ptr n m = .emptyItem) : branches ptr n m = ∅ := by
  induction n generalizing m with
  | zero => rfl
  | succ n ih =>
    have hChild := (compact_eq_empty_iff [] _).mp h
    apply Set.eq_empty_of_forall_notMem
    rintro x (⟨rfl, hTwo⟩ | ⟨i, hi⟩)
    · have hNil : (canonicalNode ptr n m).occupied = [] := occupied_eq_nil_iff.mpr hChild
      simp [hNil] at hTwo
    · rw [ih (hChild i)] at hi
      exact hi

theorem branches_set_of_empty (n : Nat) (h : item ptr n m = .emptyItem)
    (hk : k.length = n) : branches ptr n (m.set k (some v)) = ∅ := by
  induction n generalizing m k with
  | zero => rfl
  | succ n ih =>
    obtain ⟨i, l, rfl⟩ := List.exists_cons_of_length_eq_add_one hk
    have hl : l.length = n := by simpa using hk
    have hChild := (compact_eq_empty_iff [] _).mp h
    have hOther : ∀ j, j ≠ i → canonicalNode ptr n (m.set (i :: l) (some v)) j = .emptyItem := by
      intro j hj
      rw [canonicalNode_set, Function.update_of_ne hj]
      exact hChild j
    apply Set.eq_empty_of_forall_notMem
    rintro x (⟨rfl, hTwo⟩ | ⟨j, hj⟩)
    · have hOcc : (canonicalNode ptr n (m.set (i :: l) (some v))).occupied = [i] := by
        apply occupied_eq_singleton _ hOther
        rw [canonicalNode_set, Function.update_self, item_set_of_empty n (hChild i) hl]
        simp
      simp [hOcc] at hTwo
    · by_cases hji : j = i
      · subst hji
        rw [KeyMap.child_set_same, ih (hChild j) hl] at hj
        exact hj
      · rw [KeyMap.child_set_of_ne m hji, branches_of_empty n (hChild j)] at hj
        exact hj

theorem item_set_some_ne_empty (n : Nat) (m : KeyMap) (hk : k.length = n) (v : Bytes) :
    item ptr n (m.set k (some v)) ≠ .emptyItem := by
  intro h
  have hNone := (item_eq_empty_iff n _).mp h k hk
  rw [KeyMap.set, Function.update_self] at hNone
  cases hNone

theorem compact_update_singleton {i : UInt8} (h : node.occupied = [i]) (c : Item) :
    compact ptr [] (Function.update node i c) = c.prepend [i] := by
  have hOther : ∀ j, j ≠ i → Function.update node i c j = .emptyItem := by
    intro j hj
    rw [Function.update_of_ne hj]
    exact eq_empty_of_occupied h hj
  by_cases hc : c = .emptyItem
  · subst hc
    rw [(compact_eq_empty_iff [] _).mpr]
    · rfl
    · intro j
      by_cases hj : j = i
      · rw [hj, Function.update_self]
      · exact hOther j hj
  · rw [compact_of_singleton (occupied_eq_singleton (by simpa using hc) hOther), Function.update_self]
    rfl

theorem two_le_occupied_update (h : 2 ≤ node.occupied.length) (i : UInt8) {c : Item}
    (hc : c ≠ .emptyItem) : 2 ≤ (Node.occupied (Function.update node i c)).length := by
  apply h.trans
  apply (List.subperm_of_subset (nodup_occupied node) _).length_le
  intro j hj
  rw [mem_occupied] at hj ⊢
  by_cases hji : j = i
  · rwa [hji, Function.update_self]
  · rwa [Function.update_of_ne hji]

theorem item_eq_leaf (n : Nat) {p : Bytes} (h : item ptr n m = .leaf p v) :
    p.length = n ∧ ∀ k : Bytes, k.length = n → m k = if k = p then some v else none := by
  induction n generalizing m p with
  | zero =>
    cases hm : m [] with
    | none => simp [item, hm] at h
    | some w =>
      simp only [item, hm, Item.leaf.injEq] at h
      obtain ⟨rfl, rfl⟩ := h
      refine ⟨rfl, fun k hk => ?_⟩
      rw [List.eq_nil_of_length_eq_zero hk, hm, if_pos rfl]
  | succ n ih =>
    rw [item_succ] at h
    rcases occupied_cases (canonicalNode ptr n m) with hOcc | ⟨i, hOcc⟩ | hOcc
    · rw [compact_of_nil hOcc] at h
      cases h
    · rw [compact_of_singleton hOcc] at h
      cases hc : canonicalNode ptr n m i with
      | emptyItem => simp [hc, Item.prepend] at h
      | nodePtr q w => simp [hc, Item.prepend] at h
      | leaf q w =>
        simp only [hc, Item.prepend, Item.leaf.injEq, List.nil_append, List.singleton_append] at h
        obtain ⟨rfl, rfl⟩ := h
        obtain ⟨hLength, hValues⟩ := ih hc
        refine ⟨by simp [hLength], fun k hk => ?_⟩
        obtain ⟨j, l, rfl⟩ := List.exists_cons_of_length_eq_add_one hk
        have hl : l.length = n := by simpa using hk
        by_cases hji : j = i
        · subst hji
          simpa [KeyMap.child] using hValues l hl
        · have hNone := (item_eq_empty_iff n _).mp (eq_empty_of_occupied hOcc hji) l hl
          rw [if_neg (by simp [hji])]
          exact hNone
    · rw [compact_of_branching hOcc] at h
      cases h

def KeyMap.below (m : KeyMap) (p : Bytes) : KeyMap := fun k => m (p ++ k)

theorem item_eq_nodePtr (n : Nat) {p q : Bytes} (h : item ptr n m = .nodePtr p q) :
    ∃ n', n = p.length + (n' + 1) ∧ q = ptr (canonicalNode ptr n' (m.below p)) ∧
      2 ≤ (canonicalNode ptr n' (m.below p)).occupied.length ∧
      branches ptr (n' + 1) (m.below p) ⊆ branches ptr n m ∧
      ∀ k : Bytes, k.length = n → ¬ p <+: k → m k = none := by
  induction n generalizing m p with
  | zero => cases hm : m [] <;> simp [item, hm] at h
  | succ n ih =>
    rw [item_succ] at h
    rcases occupied_cases (canonicalNode ptr n m) with hOcc | ⟨i, hOcc⟩ | hOcc
    · rw [compact_of_nil hOcc] at h
      cases h
    · rw [compact_of_singleton hOcc] at h
      cases hc : canonicalNode ptr n m i with
      | emptyItem => simp [hc, Item.prepend] at h
      | leaf l w => simp [hc, Item.prepend] at h
      | nodePtr l w =>
        simp only [hc, Item.prepend, Item.nodePtr.injEq, List.nil_append, List.singleton_append] at h
        obtain ⟨rfl, rfl⟩ := h
        obtain ⟨n', hn, hPtr, hTwo, hSub, hNone⟩ := ih hc
        refine ⟨n', by simp only [List.length_cons]; omega, hPtr, hTwo, fun x hx => .inr ⟨i, hSub hx⟩, ?_⟩
        intro k hk hPrefix
        obtain ⟨j, r, rfl⟩ := List.exists_cons_of_length_eq_add_one hk
        have hr : r.length = n := by simpa using hk
        by_cases hji : j = i
        · subst hji
          exact hNone r hr (by simpa using hPrefix)
        · exact (item_eq_empty_iff n _).mp (eq_empty_of_occupied hOcc hji) r hr
    · rw [compact_of_branching hOcc] at h
      simp only [Item.nodePtr.injEq] at h
      obtain ⟨rfl, rfl⟩ := h
      refine ⟨n, by simp, rfl, hOcc, fun x hx => hx, ?_⟩
      intro k _ hPrefix
      exact absurd List.nil_prefix hPrefix

end

end F1r3Node.History
