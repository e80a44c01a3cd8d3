import Mathlib.Data.Finset.Card
import Mathlib.Data.List.AList

/-! # Union-find with path halving

Nodes are positions of a list of parents and a root is its own parent. Halving and joining change
the list, but what a client relies on is the map from nodes to roots.
-/

namespace F1r3Node.Lib.UnionFind

def parentOf (parent : List Nat) (i : Nat) : Nat := parent.getD i i

/-- Each round makes the node point to its grandparent and goes on from there. The first argument
bounds the rounds. -/
def findRoot : Nat → List Nat → Nat → List Nat × Nat
  | 0, parent, i => (parent, i)
  | rounds + 1, parent, i =>
    if parentOf parent i = i then (parent, i)
    else
      let halved := parent.set i (parentOf parent (parentOf parent i))
      findRoot rounds halved (parentOf halved i)

def unionRoots (parent : List Nat) (a b : Nat) : List Nat :=
  let (afterA, ra) := findRoot parent.length parent a
  let (afterB, rb) := findRoot afterA.length afterA b
  if ra ≠ rb then afterB.set ra rb else afterB

def pushNode (st : List Nat × AList fun _ : Nat => List Nat) (i : Nat) : List Nat × AList fun _ : Nat => List Nat :=
  let (parent, root) := findRoot st.1.length st.1 i
  (parent, st.2.insert root ((st.2.lookup root).getD [] ++ [i]))

def groups (parent : List Nat) : AList fun _ : Nat => List Nat :=
  ((List.range parent.length).foldl pushNode (parent, ∅)).2

/-- The root of every node, with a rank that grows towards the roots. -/
structure Forest (parent : List Nat) (root rank : Nat → Nat) : Prop where
  parent_lt : ∀ i < parent.length, parentOf parent i < parent.length
  rank_lt : ∀ i < parent.length, parentOf parent i ≠ i → rank i < rank (parentOf parent i)
  root_parent : ∀ i < parent.length, root (parentOf parent i) = root i
  root_self : ∀ i < parent.length, parentOf parent i = i ↔ root i = i

variable {parent : List Nat} {root rank : Nat → Nat} {i j v : Nat}

theorem parentOf_set_self (hi : i < parent.length) : parentOf (parent.set i v) i = v := by
  simp [parentOf, List.getD_eq_getElem?_getD, hi]

theorem parentOf_set_ne (hij : i ≠ j) : parentOf (parent.set i v) j = parentOf parent j := by
  simp [parentOf, List.getD_eq_getElem?_getD, List.getElem?_set_ne hij]

theorem forest_range (n : Nat) : Forest (List.range n) id (fun _ => 0) := by
  have hSelf : ∀ i < (List.range n).length, parentOf (List.range n) i = i := by
    intro i hi
    rw [List.length_range] at hi
    simp [parentOf, List.getD_eq_getElem?_getD, hi]
  constructor
  · intro i hi
    rwa [hSelf i hi]
  · intro i hi hNe
    exact absurd (hSelf i hi) hNe
  · intro i hi
    rw [hSelf i hi]
  · intro i hi
    exact iff_of_true (hSelf i hi) rfl

theorem Forest.set (h : Forest parent root rank) (hi : i < parent.length) (hv : v < parent.length)
    (hMoves : parentOf parent i ≠ i) (hRank : rank i < rank v) (hRoot : root v = root i) : Forest (parent.set i v) root rank := by
  constructor
  · intro j hj
    rw [List.length_set] at hj ⊢
    obtain rfl | hij := eq_or_ne i j
    · rwa [parentOf_set_self hi]
    · rw [parentOf_set_ne hij]
      exact h.parent_lt j hj
  · intro j hj hNe
    rw [List.length_set] at hj
    obtain rfl | hij := eq_or_ne i j
    · rwa [parentOf_set_self hi]
    · rw [parentOf_set_ne hij] at hNe ⊢
      exact h.rank_lt j hj hNe
  · intro j hj
    rw [List.length_set] at hj
    obtain rfl | hij := eq_or_ne i j
    · rwa [parentOf_set_self hi]
    · rw [parentOf_set_ne hij]
      exact h.root_parent j hj
  · intro j hj
    rw [List.length_set] at hj
    obtain rfl | hij := eq_or_ne i j
    · rw [parentOf_set_self hi, ← h.root_self i hi]
      exact iff_of_false (fun hEq => lt_irrefl _ (hEq ▸ hRank)) hMoves
    · rw [parentOf_set_ne hij]
      exact h.root_self j hj

theorem Forest.rank_lt_grandparent (h : Forest parent root rank) (hi : i < parent.length)
    (hNe : parentOf parent i ≠ i) : rank i < rank (parentOf parent (parentOf parent i)) := by
  have hParent := h.rank_lt i hi hNe
  by_cases hTop : parentOf parent (parentOf parent i) = parentOf parent i
  · rwa [hTop]
  · exact hParent.trans (h.rank_lt _ (h.parent_lt i hi) hTop)

def above (n : Nat) (rank : Nat → Nat) (i : Nat) : Finset Nat := (Finset.range n).filter (rank i < rank ·)

theorem card_above_lt (n : Nat) (hi : i < n) : (above n rank i).card < n := by
  have hSubset : above n rank i ⊆ (Finset.range n).erase i := by
    intro j hj
    obtain ⟨hRange, hLt⟩ := Finset.mem_filter.mp hj
    exact Finset.mem_erase.mpr ⟨fun hEq => lt_irrefl _ (hEq ▸ hLt), hRange⟩
  have hCard := Finset.card_le_card hSubset
  rw [Finset.card_erase_of_mem (Finset.mem_range.mpr hi), Finset.card_range] at hCard
  omega

variable {n : Nat}

theorem card_above_lt_of_rank_lt (hj : j < n) (hRank : rank i < rank j) :
    (above n rank j).card < (above n rank i).card := by
  refine Finset.card_lt_card (Finset.ssubset_iff_of_subset ?_ |>.mpr ⟨j, ?_, ?_⟩)
  · intro k hk
    obtain ⟨hRange, hLt⟩ := Finset.mem_filter.mp hk
    exact Finset.mem_filter.mpr ⟨hRange, hRank.trans hLt⟩
  · exact Finset.mem_filter.mpr ⟨Finset.mem_range.mpr hj, hRank⟩
  · intro h
    exact lt_irrefl _ (Finset.mem_filter.mp h).2

theorem findRoot_spec {rounds : Nat} (h : Forest parent root rank) (hi : i < parent.length)
    (hRounds : (above parent.length rank i).card < rounds) :
    ∃ halved, findRoot rounds parent i = (halved, root i) ∧ Forest halved root rank ∧
      halved.length = parent.length ∧ root i < parent.length ∧ root (root i) = root i := by
  induction rounds generalizing parent i with
  | zero => exact absurd hRounds (Nat.not_lt_zero _)
  | succ rounds ih =>
    rw [findRoot]
    split_ifs with hTop
    · have hRoot := (h.root_self i hi).mp hTop
      exact ⟨parent, by rw [hRoot], h, rfl, by rwa [hRoot], by rw [hRoot, hRoot]⟩
    · have hLt := h.parent_lt i hi
      have hLt' := h.parent_lt _ hLt
      have hRank := h.rank_lt_grandparent hi hTop
      have hRoot : root (parentOf parent (parentOf parent i)) = root i := by
        rw [h.root_parent _ hLt, h.root_parent i hi]
      have hHalved := h.set hi hLt' hTop hRank hRoot
      have hLength : (parent.set i (parentOf parent (parentOf parent i))).length = parent.length := List.length_set ..
      have hFewer := card_above_lt_of_rank_lt hLt' hRank
      obtain ⟨final, hFind, hForest, hFinal, hTopLt, hTopSelf⟩ := ih hHalved (hLength ▸ hLt') (by
        rw [hLength]
        omega)
      refine ⟨final, ?_, hForest, hFinal.trans hLength, ?_, ?_⟩
      · dsimp only
        rw [parentOf_set_self hi, hFind, hRoot]
      · rwa [hLength, hRoot] at hTopLt
      · rwa [hRoot] at hTopSelf

def Joins (n : Nat) (parent : List Nat) (Same : Nat → Nat → Prop) : Prop :=
  parent.length = n ∧ ∃ root rank, Forest parent root rank ∧ ∀ i j, Same i j → root i = root j

theorem joins_range (n : Nat) : Joins n (List.range n) fun _ _ => False :=
  ⟨List.length_range, id, _, forest_range n, fun _ _ hFalse => hFalse.elim⟩

theorem Joins.mono {Same Same' : Nat → Nat → Prop} (h : Joins n parent Same)
    (hMono : ∀ i j, Same' i j → Same i j) : Joins n parent Same' := by
  obtain ⟨hLength, root, rank, hForest, hSame⟩ := h
  exact ⟨hLength, root, rank, hForest, fun i j hij => hSame i j (hMono i j hij)⟩

variable {a b : Nat}

theorem Forest.link (h : Forest parent root rank) (hNe : root a ≠ root b)
    (hRootA : root (root a) = root a) (hRootB : root (root b) = root b) (hLtA : root a < parent.length)
    (hLtB : root b < parent.length) :
    Forest (parent.set (root a) (root b)) (fun j => if root j = root a then root b else root j)
      (Function.update rank (root b) (rank (root b) + rank (root a) + 1)) := by
  have hTopB : parentOf parent (root b) = root b := (h.root_self _ hLtB).mpr hRootB
  constructor
  · intro j hj
    rw [List.length_set] at hj ⊢
    obtain rfl | hij := eq_or_ne (root a) j
    · rwa [parentOf_set_self hLtA]
    · rw [parentOf_set_ne hij]
      exact h.parent_lt j hj
  · intro j hj hMoves
    rw [List.length_set] at hj
    obtain rfl | hij := eq_or_ne (root a) j
    · rw [parentOf_set_self hLtA, Function.update_self, Function.update_of_ne hNe]
      omega
    · rw [parentOf_set_ne hij] at hMoves ⊢
      have hRank := h.rank_lt j hj hMoves
      have hNotTop : j ≠ root b := fun hEq => hMoves (hEq ▸ hTopB)
      rw [Function.update_of_ne hNotTop]
      by_cases hTop : parentOf parent j = root b
      · rw [hTop] at hRank ⊢
        rw [Function.update_self]
        omega
      · rwa [Function.update_of_ne hTop]
  · intro j hj
    rw [List.length_set] at hj
    obtain rfl | hij := eq_or_ne (root a) j
    · simp [parentOf_set_self hLtA, hRootA, hRootB]
    · rw [parentOf_set_ne hij, h.root_parent j hj]
  · intro j hj
    rw [List.length_set] at hj
    obtain rfl | hij := eq_or_ne (root a) j
    · rw [parentOf_set_self hLtA, if_pos hRootA]
    · rw [parentOf_set_ne hij, h.root_self j hj]
      split_ifs with hBelow
      · refine iff_of_false (fun hEq => hij (hBelow.symm.trans hEq)) fun hEq => hNe ?_
        rw [← hBelow, ← hEq, hRootB]
      · exact Iff.rfl

theorem Joins.unionRoots {Same : Nat → Nat → Prop} (h : Joins n parent Same) (ha : a < n)
    (hb : b < n) : Joins n (unionRoots parent a b) fun i j => Same i j ∨ (i = a ∧ j = b) := by
  obtain ⟨rfl, root, rank, hForest, hSame⟩ := h
  obtain ⟨afterA, hFindA, hForestA, hLengthA, hLtA, hRootA⟩ := findRoot_spec hForest ha (card_above_lt _ ha)
  obtain ⟨afterB, hFindB, hForestB, hLengthB, hLtB, hRootB⟩ :=
    findRoot_spec hForestA (hLengthA ▸ hb) (card_above_lt _ (hLengthA ▸ hb))
  have hLength : afterB.length = parent.length := hLengthB.trans hLengthA
  rw [UnionFind.unionRoots, hFindA]
  dsimp only
  rw [hFindB]
  dsimp only
  split_ifs with hNe
  · refine ⟨by rw [List.length_set, hLength], _, _, hForestB.link hNe hRootA hRootB (hLength ▸ hLtA)
      (by rwa [hLengthB]), ?_⟩
    rintro i j (hij | ⟨rfl, rfl⟩)
    · rw [hSame i j hij]
    · simp
  · refine ⟨hLength, root, rank, hForestB, ?_⟩
    rintro i j (hij | ⟨rfl, rfl⟩)
    · exact hSame i j hij
    · exact not_not.mp hNe

theorem foldl_pushNode_spec (h : Forest parent root rank) (nodes : List Nat) (hNodes : ∀ i ∈ nodes, i < parent.length)
    (gs : AList fun _ : Nat => List Nat) (r i : Nat) :
    i ∈ (((nodes.foldl pushNode (parent, gs)).2.lookup r).getD []) ↔
      i ∈ (gs.lookup r).getD [] ∨ (i ∈ nodes ∧ root i = r) := by
  induction nodes generalizing parent gs with
  | nil => simp
  | cons j nodes ih =>
    obtain ⟨hj, hRest⟩ := List.forall_mem_cons.mp hNodes
    obtain ⟨halved, hFind, hForest, hLength, -, -⟩ := findRoot_spec h hj (card_above_lt _ hj)
    rw [List.foldl_cons, pushNode, hFind, ih hForest (hLength ▸ hRest)]
    obtain rfl | hr := eq_or_ne r (root j)
    · rw [AList.lookup_insert, Option.getD_some, List.mem_append, List.mem_singleton, List.mem_cons]
      constructor
      · rintro ((hOld | rfl) | ⟨hi, hRoot⟩)
        · exact .inl hOld
        · exact .inr ⟨.inl rfl, rfl⟩
        · exact .inr ⟨.inr hi, hRoot⟩
      · rintro (hOld | ⟨rfl | hi, hRoot⟩)
        · exact .inl (.inl hOld)
        · exact .inl (.inr rfl)
        · exact .inr ⟨hi, hRoot⟩
    · rw [AList.lookup_insert_ne hr, List.mem_cons]
      constructor
      · rintro (hOld | ⟨hi, hRoot⟩)
        · exact .inl hOld
        · exact .inr ⟨.inr hi, hRoot⟩
      · rintro (hOld | ⟨rfl | hi, hRoot⟩)
        · exact .inl hOld
        · exact absurd hRoot.symm hr
        · exact .inr ⟨hi, hRoot⟩

theorem mem_groups_iff (h : Forest parent root rank) {r i : Nat} :
    i ∈ ((groups parent).lookup r).getD [] ↔ i < parent.length ∧ root i = r := by
  rw [groups, foldl_pushNode_spec h _ (fun i hi => List.mem_range.mp hi)]
  simp

def Within (r : Nat → Nat → Prop) (parent : List Nat) : Prop := ∀ i, r i (parentOf parent i)

variable {r : Nat → Nat → Prop}

theorem within_range (hr : Equivalence r) (n : Nat) : Within r (List.range n) := by
  intro i
  have hSelf : parentOf (List.range n) i = i := by
    rw [parentOf, List.getD_eq_getElem?_getD]
    by_cases hi : i < n
    · simp [hi]
    · simp [List.getElem?_eq_none (List.length_range.trans_le (Nat.le_of_not_lt hi))]
  rw [hSelf]
  exact hr.refl i

theorem Within.set (h : Within r parent) (hv : r i v) : Within r (parent.set i v) := by
  intro j
  obtain rfl | hij := eq_or_ne i j
  · by_cases hi : i < parent.length
    · rwa [parentOf_set_self hi]
    · rw [List.set_eq_of_length_le (Nat.le_of_not_lt hi)]
      exact h i
  · rw [parentOf_set_ne hij]
    exact h j

theorem Within.findRoot (hr : Equivalence r) (h : Within r parent) (rounds i : Nat) :
    Within r (findRoot rounds parent i).1 ∧ r i (findRoot rounds parent i).2 := by
  induction rounds generalizing parent i with
  | zero => exact ⟨h, hr.refl i⟩
  | succ rounds ih =>
    rw [UnionFind.findRoot]
    split
    · exact ⟨h, hr.refl i⟩
    · have hHalved : Within r (parent.set i (parentOf parent (parentOf parent i))) :=
        h.set (hr.trans (h i) (h _))
      obtain ⟨hWithin, hRoot⟩ := ih hHalved (parentOf (parent.set i (parentOf parent (parentOf parent i))) i)
      exact ⟨hWithin, hr.trans (hHalved i) hRoot⟩

theorem Within.unionRoots (hr : Equivalence r) (h : Within r parent) (hab : r a b) :
    Within r (unionRoots parent a b) := by
  obtain ⟨hA, hRootA⟩ := h.findRoot hr parent.length a
  obtain ⟨hB, hRootB⟩ := hA.findRoot hr (UnionFind.findRoot parent.length parent a).1.length b
  rw [UnionFind.unionRoots]
  dsimp only
  split_ifs
  · exact hB.set (hr.trans (hr.symm hRootA) (hr.trans hab hRootB))
  · exact hB

theorem Within.foldl_pushNode (hr : Equivalence r) (nodes : List Nat) (h : Within r parent)
    {gs : AList fun _ : Nat => List Nat} (hgs : ∀ root, ∀ i ∈ (gs.lookup root).getD [], r i root) (root : Nat) :
    ∀ i ∈ ((nodes.foldl pushNode (parent, gs)).2.lookup root).getD [], r i root := by
  induction nodes generalizing parent gs with
  | nil => exact hgs root
  | cons j nodes ih =>
    obtain ⟨hNext, hRoot⟩ := h.findRoot hr parent.length j
    rw [List.foldl_cons]
    refine ih hNext fun root' i hi => ?_
    obtain rfl | hNe := eq_or_ne root' (UnionFind.findRoot parent.length parent j).2
    · rw [AList.lookup_insert, Option.getD_some] at hi
      obtain hOld | hNew := List.mem_append.mp hi
      · exact hgs _ i hOld
      · rwa [List.mem_singleton.mp hNew]
    · rw [AList.lookup_insert_ne hNe] at hi
      exact hgs root' i hi

theorem Within.of_mem_groups (hr : Equivalence r) (h : Within r parent) {root i : Nat}
    (hi : i ∈ ((groups parent).lookup root).getD []) : r i root :=
  h.foldl_pushNode hr (List.range parent.length) (fun _ _ hMem => absurd hMem List.not_mem_nil) root i hi

end F1r3Node.Lib.UnionFind
