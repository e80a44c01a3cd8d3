import F1r3Node.History.Batch

/-! # The reference map of a run and the nodes it hashes

The collision hypothesis of the results on runs ranges over the nodes of the trees that the batches go through.
-/

namespace F1r3Node.History

open Shared

def emptyMap : KeyMap := fun _ => none

def reference (batches : List (List HistoryAction)) : KeyMap := batches.foldl KeyMap.applyAll emptyMap

section

variable (env : TreeEnv)

/-- The root node of a map on keys of length `L`. -/
def canonicalRoot : Nat → KeyMap → Node
  | 0, _ => emptyNode
  | n + 1, m => canonicalNode env.ptr n m

def treeNodes (L : Nat) (m : KeyMap) : Set Node := { canonicalRoot env L m } ∪ branches env.ptr L m

def runNodes (L : Nat) (batches : List (List HistoryAction)) : Set Node :=
  { x | ∃ done, done <+: batches ∧ x ∈ treeNodes env L (reference done) }

def StoreConsistent (store : Bytes → Option Bytes) (S : Set Node) : Prop :=
  ∀ x ∈ S, ∀ b, store (env.ptr x) = some b → b = Node.bytes x

end

/-- What the callers of `process` guarantee. -/
def ValidBatch (L : Nat) (actions : List HistoryAction) : Prop :=
  (actions.map HistoryAction.key).Nodup ∧ ∀ a ∈ actions, a.key.length = L

def KeyMap.Values32 (m : KeyMap) : Prop := ∀ k v, m k = some v → v.length = 32

theorem KeyMap.Values32.applyAll {m : KeyMap} (h : m.Values32) (actions : List HistoryAction) :
    (m.applyAll actions).Values32 := by
  induction actions generalizing m with
  | nil => exact h
  | cons a actions ih =>
    apply ih
    intro k v hv
    rw [KeyMap.apply, KeyMap.set, Function.update_apply] at hv
    split_ifs at hv with hk
    · cases a with
      | insert key hash =>
        cases hv
        exact hash.2
      | delete key => cases hv
    · exact h k v hv

theorem values32_reference (batches : List (List HistoryAction)) : (reference batches).Values32 := by
  have hAll : ∀ m : KeyMap, m.Values32 → (batches.foldl KeyMap.applyAll m).Values32 := by
    induction batches with
    | nil => exact fun _ h => h
    | cons b batches ih => exact fun m h => ih _ (h.applyAll b)
  exact hAll emptyMap fun k v hv => by cases hv

section

variable {env : TreeEnv}

theorem length_ptr (x : Node) : (env.ptr x).length = 32 := env.blake.length_hash _

variable {n : Nat} {m : KeyMap}

theorem item_wellFormed (hn : n ≤ 127) (hm : m.Values32) :
    (item env.ptr n m).WellFormed := by
  cases hItem : item env.ptr n m with
  | emptyItem => trivial
  | leaf p v =>
    obtain ⟨hLength, hValues⟩ := item_eq_leaf n hItem
    have hp := hValues p hLength
    rw [if_pos rfl] at hp
    exact ⟨hLength.le.trans hn, hm p v hp⟩
  | nodePtr p q =>
    obtain ⟨n', hLength, rfl, -⟩ := item_eq_nodePtr n hItem
    exact ⟨by omega, length_ptr _⟩

theorem canonicalNode_wellFormed (hn : n ≤ 127) (hm : m.Values32) :
    Node.WellFormed (canonicalNode env.ptr n m) := fun i =>
  item_wellFormed hn fun k v hv => hm (i :: k) v hv

theorem branches_wellFormed (hn : n ≤ 128) (hm : m.Values32) :
    ∀ x ∈ branches env.ptr n m, Node.WellFormed x := by
  induction n generalizing m with
  | zero => exact fun x hx => absurd hx (Set.notMem_empty x)
  | succ n ih =>
    rintro x (⟨rfl, -⟩ | ⟨i, hx⟩)
    · exact canonicalNode_wellFormed (by omega) hm
    · exact ih (by omega) (fun k v hv => hm (i :: k) v hv) x hx

theorem treeNodes_wellFormed {L : Nat} (hL : L ≤ 127) (hm : m.Values32) :
    ∀ x ∈ treeNodes env L m, Node.WellFormed x := by
  rintro x (rfl | hx)
  · cases L with
    | zero => exact fun _ => trivial
    | succ n => exact canonicalNode_wellFormed (by omega) hm
  · exact branches_wellFormed (by omega) hm x hx

theorem collisionFree_runNodes {L : Nat} (hL : L ≤ 127) {batches : List (List HistoryAction)}
    (hHash : Set.InjOn env.ptr (runNodes env L batches)) :
    CollisionFree env (runNodes env L batches) := by
  refine ⟨?_, hHash⟩
  rintro x ⟨done, -, hx⟩
  exact treeNodes_wellFormed hL (values32_reference done) x hx

theorem canonicalRoot_emptyMap (L : Nat) : canonicalRoot env L emptyMap = emptyNode := by
  cases L with
  | zero => rfl
  | succ n => exact (canonicalNode_eq_emptyNode_iff n emptyMap).mpr fun _ _ => rfl

variable {S : Set Node}

theorem compact_injective (hInj : Set.InjOn env.ptr S) {x y : Node}
    (hx : 2 ≤ x.occupied.length → x ∈ S) (hy : 2 ≤ y.occupied.length → y ∈ S)
    (h : compact env.ptr [] x = compact env.ptr [] y) : x = y := by
  rcases occupied_cases x with hOcc | ⟨i, hOcc⟩ | hOcc
  · rw [compact_of_nil hOcc] at h
    have hy' := (compact_eq_empty_iff [] y).mp h.symm
    funext j
    rw [occupied_eq_nil_iff.mp hOcc j, hy' j]
  · have hi : x i ≠ .emptyItem := mem_occupied.mp (hOcc ▸ List.mem_singleton_self i)
    rw [compact_of_singleton hOcc] at h
    rcases occupied_cases y with hOcc' | ⟨j, hOcc'⟩ | hOcc'
    · rw [compact_of_nil hOcc', Item.prepend_eq_empty_iff] at h
      exact absurd h hi
    · rw [compact_of_singleton hOcc'] at h
      obtain ⟨rfl, hItem⟩ : i = j ∧ x i = y j := by
        cases hxi : x i <;> cases hyj : y j <;> simp_all [Item.prepend]
      funext k
      by_cases hk : k = i
      · rw [hk, hItem]
      · rw [eq_empty_of_occupied hOcc hk, eq_empty_of_occupied hOcc' hk]
    · rw [compact_of_branching hOcc'] at h
      cases hxi : x i <;> simp_all [Item.prepend]
  · rw [compact_of_branching hOcc] at h
    rcases occupied_cases y with hOcc' | ⟨j, hOcc'⟩ | hOcc'
    · rw [compact_of_nil hOcc'] at h
      cases h
    · rw [compact_of_singleton hOcc'] at h
      cases hyj : y j <;> simp_all [Item.prepend]
    · rw [compact_of_branching hOcc', Item.nodePtr.injEq] at h
      exact hInj (hx hOcc) (hy hOcc') h.2

theorem eq_of_item_eq (hInj : Set.InjOn env.ptr S) (n : Nat) {m' : KeyMap}
    (hm : branches env.ptr n m ⊆ S) (hm' : branches env.ptr n m' ⊆ S)
    (h : item env.ptr n m = item env.ptr n m') : ∀ k : Bytes, k.length = n → m k = m' k := by
  induction n generalizing m m' with
  | zero =>
    intro k hk
    rw [List.eq_nil_of_length_eq_zero hk]
    cases h₁ : m [] <;> cases h₂ : m' [] <;> simp_all [item]
  | succ n ih =>
    intro k hk
    obtain ⟨i, l, rfl⟩ := List.exists_cons_of_length_eq_add_one hk
    have hNode : canonicalNode env.ptr n m = canonicalNode env.ptr n m' :=
      compact_injective hInj (fun hTwo => hm (.inl ⟨rfl, hTwo⟩)) (fun hTwo => hm' (.inl ⟨rfl, hTwo⟩)) h
    exact ih ((branches_child_subset n m i).trans hm) ((branches_child_subset n m' i).trans hm')
      (congrFun hNode i) l (by simpa using hk)

theorem eq_of_canonicalNode_eq (hInj : Set.InjOn env.ptr S) {m' : KeyMap}
    (hm : branches env.ptr (n + 1) m ⊆ S) (hm' : branches env.ptr (n + 1) m' ⊆ S)
    (h : canonicalNode env.ptr n m = canonicalNode env.ptr n m') :
    ∀ k : Bytes, k.length = n + 1 → m k = m' k :=
  eq_of_item_eq hInj (n + 1) hm hm' (congrArg (compact env.ptr []) h)

end

end F1r3Node.History
