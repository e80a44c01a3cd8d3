import F1r3Node.History.RadixTreeSpec

/-! # Single-key insertion and deletion

They commute with a byte put in front of item and key, so the induction follows the length of the keys: no occupied
byte, one, or several.
-/

namespace F1r3Node.History

open Shared

section

variable {env : TreeEnv} {S : Set Node} {t t' : RadixTreeImpl}

theorem commonPrefix_cons_same (i : UInt8) (l r : Bytes) :
    commonPrefix (i :: l) (i :: r) =
      (i :: (commonPrefix l r).1, (commonPrefix l r).2.1, (commonPrefix l r).2.2) := by
  simp [commonPrefix]

variable {i j : UInt8}

theorem commonPrefix_cons_ne (h : j ≠ i) (l r : Bytes) :
    commonPrefix (j :: l) (i :: r) = ([], j :: l, i :: r) := by
  simp [commonPrefix, h]

theorem commonPrefix_nil (l : Bytes) : commonPrefix l [] = ([], l, []) := by
  cases l <;> simp [commonPrefix]

theorem saveNodeAndCreateItem_cons (x : Node) (i : UInt8) (pre : Bytes) (compaction : Bool) :
    saveNodeAndCreateItem env x (i :: pre) compaction =
      Item.prepend [i] <$> saveNodeAndCreateItem env x pre compaction := by
  cases compaction with
  | false => simp [saveNodeAndCreateItem, Item.prepend]
  | true =>
    rw [saveNodeAndCreateItem, saveNodeAndCreateItem, if_pos rfl, if_pos rfl]
    rcases x.occupied with _ | ⟨j, _ | ⟨k, l⟩⟩
    · simp [Item.prepend]
    · simp
    · simp [Item.prepend]

theorem update_prepend (fuel : Nat) {c : Item} (hc : c ≠ .emptyItem) (i : UInt8) (k v : Bytes) :
    update env (fuel + 1) (c.prepend [i]) (i :: k) v =
      Option.map (Item.prepend [i]) <$> update env (fuel + 1) c k v := by
  cases c with
  | emptyItem => exact absurd rfl hc
  | leaf p w =>
    simp only [Item.prepend, List.cons_append, List.nil_append, update, List.length_cons, ne_eq,
      Nat.add_right_cancel_iff, List.cons.injEq, true_and, commonPrefix_cons_same]
    split
    · rfl
    · split
      · split <;> rfl
      · rcases commonPrefix k p with ⟨comm, _ | ⟨a, l⟩, _ | ⟨b, r⟩⟩
        · rfl
        · rfl
        · rfl
        · simp [saveNodeAndCreateItem_cons]
  | nodePtr p q =>
    simp only [Item.prepend, List.cons_append, List.nil_append, update, List.length_cons,
      Nat.add_le_add_iff_right, commonPrefix_cons_same]
    split
    · rfl
    · rcases commonPrefix k p with ⟨comm, _ | ⟨a, l⟩, _ | ⟨b, r⟩⟩
      · rfl
      · rfl
      · simp only [map_bind]
        congr 1
        funext child
        congr 1
        funext r
        cases r <;> simp [saveNodeAndCreateItem_cons]
      · simp [saveNodeAndCreateItem_cons]

theorem delete_prepend (fuel : Nat) (c : Item) (i : UInt8) (k : Bytes) :
    delete env (fuel + 1) (c.prepend [i]) (i :: k) =
      Option.map (Item.prepend [i]) <$> delete env (fuel + 1) c k := by
  cases c with
  | emptyItem => rfl
  | leaf p w =>
    simp only [Item.prepend, List.cons_append, List.nil_append, delete, List.cons.injEq, true_and]
    split <;> rfl
  | nodePtr p q =>
    simp only [Item.prepend, List.cons_append, List.nil_append, delete, commonPrefix_cons_same]
    rcases commonPrefix k p with ⟨comm, _ | ⟨a, l⟩, _ | ⟨b, r⟩⟩
    · rfl
    · rfl
    · simp only [map_bind]
      congr 1
      funext child
      congr 1
      funext r
      cases r <;> simp [saveNodeAndCreateItem_cons]
    · rfl

theorem Rewrites.of_eq {α : Type} {x : TreeM (Option α)} {old new : α} {X : Set Node} {r : Option α}
    (hGood : Faithful env S t) (hRun : x.run t = .ok r t) (hNew : r.getD old = new)
    (hX : Available env t X) : Rewrites env S t x old new X :=
  ⟨r, t, hRun, hNew, .refl hGood, hX⟩

theorem Rewrites.map {α β : Type} {x : TreeM (Option α)} {old new : α} {X : Set Node}
    (h : Rewrites env S t x old new X) (f : α → β) :
    Rewrites env S t (Option.map f <$> x) (f old) (f new) X := by
  obtain ⟨r, t', hRun, hNew, hEvolves, hX⟩ := h
  refine ⟨r.map f, t', ?_, ?_, hEvolves, hX⟩
  · rw [map_eq_pure_bind, run_bind_ok hRun]
    rfl
  · rw [← hNew]
    cases r <;> rfl

variable {n : Nat} {m : KeyMap} {k : Bytes}

theorem available_branches_set {v : Option Bytes}
    (hOld : Available env t (branches env.ptr (n + 1) m))
    (hRoot : 2 ≤ (canonicalNode env.ptr n (m.set (i :: k) v)).occupied.length →
      Available env t {canonicalNode env.ptr n (m.set (i :: k) v)})
    (hChild : Available env t (branches env.ptr n ((m.child i).set k v))) :
    Available env t (branches env.ptr (n + 1) (m.set (i :: k) v)) := by
  rintro x (⟨rfl, hTwo⟩ | ⟨j, hj⟩)
  · exact hRoot hTwo _ rfl
  · by_cases hji : j = i
    · subst hji
      rw [KeyMap.child_set_same] at hj
      exact hChild x hj
    · rw [KeyMap.child_set_of_ne m hji] at hj
      exact hOld x (.inr ⟨j, hj⟩)

theorem branches_child_subset (n : Nat) (m : KeyMap) (i : UInt8) :
    branches env.ptr n (m.child i) ⊆ branches env.ptr (n + 1) m := fun _ hx => .inr ⟨i, hx⟩

theorem branches_set_child_subset (n : Nat) (m : KeyMap) (i : UInt8) (k : Bytes) (v : Option Bytes) :
    branches env.ptr n ((m.child i).set k v) ⊆ branches env.ptr (n + 1) (m.set (i :: k) v) := by
  rw [← KeyMap.child_set_same]
  exact branches_child_subset n _ i

theorem KeyMap.set_none_eq_self (h : m k = none) : m.set k none = m := by
  rw [KeyMap.set, ← h, Function.update_eq_self]

theorem canonicalNode_split (hij : j ≠ i)
    (hOcc : (canonicalNode env.ptr n m).occupied = [i]) (v : Bytes) (hk : k.length = n) :
    canonicalNode env.ptr n (m.set (j :: k) (some v)) =
      splitNode i (canonicalNode env.ptr n m i) j k v := by
  have hEmpty := eq_empty_of_occupied hOcc hij
  rw [canonicalNode_set, item_set_of_empty n hEmpty hk, splitNode]
  congr 1
  funext x
  by_cases hx : x = i
  · rw [hx, Function.update_self]
  · rw [Function.update_of_ne hx]
    exact eq_empty_of_occupied hOcc hx

variable (hS : CollisionFree env S)

include hS

variable {fuel : Nat}

theorem update_split {v : Bytes} (hij : j ≠ i)
    (hOcc : (canonicalNode env.ptr n m).occupied = [i]) (hk : k.length = n)
    (hGood : Faithful env S t) (hNew : branches env.ptr (n + 1) (m.set (j :: k) (some v)) ⊆ S)
    (hStored : Stored env t.store (branches env.ptr (n + 1) m)) :
    Rewrites env S t (update env (fuel + 1) ((canonicalNode env.ptr n m i).prepend [i]) (j :: k) v)
      ((canonicalNode env.ptr n m i).prepend [i]) (item env.ptr (n + 1) (m.set (j :: k) (some v)))
      (branches env.ptr (n + 1) (m.set (j :: k) (some v))) := by
  have hNe : canonicalNode env.ptr n m i ≠ .emptyItem := mem_occupied.mp (hOcc ▸ List.mem_singleton_self i)
  have hNode := canonicalNode_split hij hOcc v hk
  have hTwo : 2 ≤ (canonicalNode env.ptr n (m.set (j :: k) (some v))).occupied.length := by
    rw [hNode]
    apply two_le_occupied hij
    · simp [splitNode]
    · rw [splitNode, Function.update_of_ne hij.symm, Function.update_self]
      exact hNe
  have hMem : canonicalNode env.ptr n (m.set (j :: k) (some v)) ∈ S := hNew (.inl ⟨rfl, hTwo⟩)
  obtain ⟨t', hRun, hEvolves, hRoot⟩ := saveNodeAndCreateItem_spec_false hS hGood [] hMem
  have hUpdate : (update env (fuel + 1) ((canonicalNode env.ptr n m i).prepend [i]) (j :: k) v).run t =
      .ok (some (.nodePtr [] (env.ptr (canonicalNode env.ptr n (m.set (j :: k) (some v)))))) t' := by
    rw [hNode] at hRun ⊢
    cases hc : canonicalNode env.ptr n m i with
    | emptyItem => exact absurd hc hNe
    | leaf p w =>
      have hLength := (item_eq_leaf n hc).1
      rw [hc] at hRun
      simp only [Item.prepend, List.cons_append, List.nil_append, update, List.length_cons, hLength, hk,
        ne_eq, not_true_eq_false, if_false, List.cons.injEq, hij.symm, false_and,
        commonPrefix_cons_ne hij]
      rw [run_bind_ok hRun]
      rfl
    | nodePtr p q =>
      have hLength : p.length < n := by
        obtain ⟨n', hn, -⟩ := item_eq_nodePtr n hc
        omega
      rw [hc] at hRun
      simp only [Item.prepend, List.cons_append, List.nil_append, update, List.length_cons, hk,
        Nat.add_le_add_iff_right, not_le.mpr hLength, if_false, commonPrefix_cons_ne hij]
      rw [run_bind_ok hRun]
      rfl
  refine ⟨_, t', hUpdate, ?_, hEvolves, ?_⟩
  · rw [item_succ, compact_of_branching hTwo]
    rfl
  · apply available_branches_set (hStored.available.evolves hEvolves) fun _ => hRoot
    have hEmpty : item env.ptr n (m.child j) = .emptyItem := eq_empty_of_occupied hOcc hij
    rw [branches_set_of_empty n hEmpty hk]
    exact fun _ hx => absurd hx (Set.notMem_empty _)

theorem rewrites_below {l : Bytes} {v : Option Bytes} (compaction : Bool)
    (change : Item → TreeM (Option Item)) (hGood : Faithful env S t)
    (hOcc : 2 ≤ (canonicalNode env.ptr n m).occupied.length) (hOld : branches env.ptr (n + 1) m ⊆ S)
    (hNew : branches env.ptr (n + 1) (m.set (j :: l) v) ⊆ S)
    (hStored : Stored env t.store (branches env.ptr (n + 1) m))
    (hCompaction : compaction = false → 2 ≤ (canonicalNode env.ptr n (m.set (j :: l) v)).occupied.length)
    (hChange : ∀ t₁, Evolves env S t t₁ → Rewrites env S t₁ (change (item env.ptr n (m.child j)))
      (item env.ptr n (m.child j)) (item env.ptr n ((m.child j).set l v))
      (branches env.ptr n ((m.child j).set l v))) :
    Rewrites env S t
      (do
        let childNode ← loadNode env (env.ptr (canonicalNode env.ptr n m)) false
        match ← change (childNode j) with
        | some childItem =>
          return some (← saveNodeAndCreateItem env (Function.update childNode j childItem) [] compaction)
        | none => return none)
      (item env.ptr (n + 1) m) (item env.ptr (n + 1) (m.set (j :: l) v))
      (branches env.ptr (n + 1) (m.set (j :: l) v)) := by
  have hMem : canonicalNode env.ptr n m ∈ branches env.ptr (n + 1) m := .inl ⟨rfl, hOcc⟩
  obtain ⟨t₁, hLoad, hEvolves₁⟩ := loadNode_spec hS hGood (hOld hMem) (hStored _ hMem) false
  obtain ⟨r, t₂, hRun, hGetD, hEvolves₂, hX⟩ := hChange t₁ hEvolves₁
  have hEvolves := hEvolves₁.trans hEvolves₂
  change (change (canonicalNode env.ptr n m j)).run t₁ = _ at hRun
  cases r with
  | none =>
    have hSame : canonicalNode env.ptr n (m.set (j :: l) v) = canonicalNode env.ptr n m := by
      rw [canonicalNode_set, ← hGetD]
      exact Function.update_eq_self j _
    refine ⟨none, t₂, ?_, ?_, hEvolves, ?_⟩
    · rw [run_bind_ok hLoad, run_bind_ok hRun]
      rfl
    · rw [item_succ, item_succ, hSame]
      rfl
    · apply available_branches_set (hStored.available.evolves hEvolves) _ hX
      intro _ x hx
      rw [hSame] at hx
      rw [Set.mem_singleton_iff.mp hx]
      exact hStored.available.evolves hEvolves _ hMem
  | some c =>
    have hNode : canonicalNode env.ptr n (m.set (j :: l) v) =
        Function.update (canonicalNode env.ptr n m) j c := by
      rw [canonicalNode_set, ← hGetD]
      rfl
    obtain ⟨t₃, hSave, hEvolves₃, hRoot⟩ : ∃ t₃, (saveNodeAndCreateItem env
        (Function.update (canonicalNode env.ptr n m) j c) [] compaction).run t₂ =
          .ok (item env.ptr (n + 1) (m.set (j :: l) v)) t₃ ∧ Evolves env S t₂ t₃ ∧
        (2 ≤ (canonicalNode env.ptr n (m.set (j :: l) v)).occupied.length →
          Available env t₃ {canonicalNode env.ptr n (m.set (j :: l) v)}) := by
      rw [item_succ, ← hNode]
      cases compaction with
      | true => exact saveNodeAndCreateItem_spec hS hEvolves₂.faithful [] fun h => hNew (.inl ⟨rfl, h⟩)
      | false =>
        have hTwo := hCompaction rfl
        obtain ⟨t₃, hSave, hEvolves₃, hRoot⟩ :=
          saveNodeAndCreateItem_spec_false hS hEvolves₂.faithful [] (hNew (.inl ⟨rfl, hTwo⟩))
        exact ⟨t₃, by rw [hSave, compact_of_branching hTwo], hEvolves₃, fun _ => hRoot⟩
    refine ⟨some (item env.ptr (n + 1) (m.set (j :: l) v)), t₃, ?_, rfl, hEvolves.trans hEvolves₃, ?_⟩
    · rw [run_bind_ok hLoad, run_bind_ok hRun]
      simp only
      rw [run_bind_ok hSave]
      rfl
    · exact available_branches_set (hStored.available.evolves (hEvolves.trans hEvolves₃)) hRoot
        (hX.evolves hEvolves₃)

theorem update_spec (n : Nat) (hFuel : n < fuel) (m : KeyMap) (hk : k.length = n)
    (v : Bytes) (hGood : Faithful env S t) (hOld : branches env.ptr n m ⊆ S)
    (hNew : branches env.ptr n (m.set k (some v)) ⊆ S)
    (hStored : Stored env t.store (branches env.ptr n m)) :
    Rewrites env S t (update env fuel (item env.ptr n m) k v) (item env.ptr n m)
      (item env.ptr n (m.set k (some v))) (branches env.ptr n (m.set k (some v))) := by
  induction n generalizing m k t fuel with
  | zero =>
    obtain ⟨fuel, rfl⟩ : ∃ f, fuel = f + 1 := ⟨fuel - 1, by omega⟩
    obtain rfl := List.eq_nil_of_length_eq_zero hk
    have hNewItem : item env.ptr 0 (m.set [] (some v)) = .leaf [] v := by
      rw [item, KeyMap.set, Function.update_self]
    rw [hNewItem]
    cases hm : m [] with
    | none =>
      simp only [item, hm, update]
      exact .of_eq hGood rfl rfl fun _ hx => absurd hx (Set.notMem_empty _)
    | some w =>
      simp only [item, hm, update, ne_eq, not_true_eq_false, if_false, if_true]
      apply Rewrites.of_eq hGood rfl _ fun _ hx => absurd hx (Set.notMem_empty _)
      split <;> simp_all
  | succ n ih =>
    obtain ⟨fuel, rfl⟩ : ∃ f, fuel = f + 1 := ⟨fuel - 1, by omega⟩
    obtain ⟨j, l, rfl⟩ := List.exists_cons_of_length_eq_add_one hk
    have hl : l.length = n := by simpa using hk
    have hOldChild := (branches_child_subset n m j).trans hOld
    have hNewChild := (branches_set_child_subset n m j l (some v)).trans hNew
    have hStoredChild := hStored.mono (branches_child_subset n m j)
    have hLower : n < fuel + 1 := by omega
    rcases occupied_cases (canonicalNode env.ptr n m) with hOcc | ⟨i, hOcc⟩ | hOcc
    · have hEmpty : item env.ptr (n + 1) m = .emptyItem := compact_of_nil hOcc
      rw [item_set_of_empty _ hEmpty hk, branches_set_of_empty _ hEmpty hk, hEmpty, update]
      exact .of_eq hGood rfl rfl fun _ hx => absurd hx (Set.notMem_empty _)
    · have hItem : item env.ptr (n + 1) m = (canonicalNode env.ptr n m i).prepend [i] :=
        compact_of_singleton hOcc
      have hNe : canonicalNode env.ptr n m i ≠ .emptyItem :=
        mem_occupied.mp (hOcc ▸ List.mem_singleton_self i)
      by_cases hji : j = i
      · subst hji
        have hRec := ih hLower (m.child j) hl hGood hOldChild hNewChild hStoredChild
        obtain ⟨r, t', hRun, hGetD, hEvolves, hX⟩ := hRec.map (Item.prepend [j])
        rw [hItem, update_prepend fuel hNe]
        refine ⟨r, t', hRun, ?_, hEvolves, ?_⟩
        · rw [item_succ, canonicalNode_set, compact_update_singleton hOcc]
          exact hGetD
        · apply available_branches_set (hStored.available.evolves hEvolves) _ hX
          intro hTwo
          exact absurd hTwo (not_le.mpr (occupied_lt_two (i := j) fun x hx => by
            rw [canonicalNode_set, Function.update_of_ne hx]
            exact eq_empty_of_occupied hOcc hx))
      · rw [hItem]
        exact update_split hS hji hOcc hl hGood hNew hStored
    · have hItem : item env.ptr (n + 1) m = .nodePtr [] (env.ptr (canonicalNode env.ptr n m)) :=
        compact_of_branching hOcc
      have hTwo : 2 ≤ (canonicalNode env.ptr n (m.set (j :: l) (some v))).occupied.length := by
        rw [canonicalNode_set]
        exact two_le_occupied_update hOcc j (item_set_some_ne_empty n _ hl v)
      have hBelow := rewrites_below hS false (fun c => update env fuel c l v) hGood
        hOcc hOld hNew hStored (fun _ => hTwo) fun t₁ hEvolves₁ => ih (by omega) (m.child j) hl hEvolves₁.faithful
          hOldChild hNewChild (hEvolves₁.store_eq ▸ hStoredChild)
      have hUpdate : update env (fuel + 1) (item env.ptr (n + 1) m) (j :: l) v = (do
          let childNode ← loadNode env (env.ptr (canonicalNode env.ptr n m)) false
          match ← update env fuel (childNode j) l v with
          | some childItem =>
            return some (← saveNodeAndCreateItem env (Function.update childNode j childItem) [] false)
          | none => return none) := by
        rewrite [hItem, update, if_neg (by simp), commonPrefix_nil]
        rfl
      rw [hUpdate]
      exact hBelow

theorem delete_spec (n : Nat) (hFuel : n < fuel) (m : KeyMap) (hk : k.length = n)
    (hGood : Faithful env S t) (hOld : branches env.ptr n m ⊆ S)
    (hNew : branches env.ptr n (m.set k none) ⊆ S) (hStored : Stored env t.store (branches env.ptr n m)) :
    Rewrites env S t (delete env fuel (item env.ptr n m) k) (item env.ptr n m)
      (item env.ptr n (m.set k none)) (branches env.ptr n (m.set k none)) := by
  induction n generalizing m k t fuel with
  | zero =>
    obtain ⟨fuel, rfl⟩ : ∃ f, fuel = f + 1 := ⟨fuel - 1, by omega⟩
    obtain rfl := List.eq_nil_of_length_eq_zero hk
    have hNewItem : item env.ptr 0 (m.set [] none) = .emptyItem := by
      rw [item, KeyMap.set, Function.update_self]
    rw [hNewItem]
    cases hm : m [] with
    | none =>
      simp only [item, hm, delete]
      exact .of_eq hGood rfl rfl fun _ hx => absurd hx (Set.notMem_empty _)
    | some w =>
      simp only [item, hm, delete, if_true]
      exact .of_eq hGood rfl rfl fun _ hx => absurd hx (Set.notMem_empty _)
  | succ n ih =>
    obtain ⟨fuel, rfl⟩ : ∃ f, fuel = f + 1 := ⟨fuel - 1, by omega⟩
    obtain ⟨j, l, rfl⟩ := List.exists_cons_of_length_eq_add_one hk
    have hl : l.length = n := by simpa using hk
    have hOldChild := (branches_child_subset n m j).trans hOld
    have hNewChild := (branches_set_child_subset n m j l none).trans hNew
    have hStoredChild := hStored.mono (branches_child_subset n m j)
    have hLower : n < fuel + 1 := by omega
    have hAbsent : canonicalNode env.ptr n m j = .emptyItem → m.set (j :: l) none = m := fun h =>
      KeyMap.set_none_eq_self ((item_eq_empty_iff n _).mp h l hl)
    rcases occupied_cases (canonicalNode env.ptr n m) with hOcc | ⟨i, hOcc⟩ | hOcc
    · have hEmpty : item env.ptr (n + 1) m = .emptyItem := compact_of_nil hOcc
      rw [hAbsent (occupied_eq_nil_iff.mp hOcc j), hEmpty, delete]
      exact .of_eq hGood rfl rfl hStored.available
    · have hItem : item env.ptr (n + 1) m = (canonicalNode env.ptr n m i).prepend [i] :=
        compact_of_singleton hOcc
      by_cases hji : j = i
      · subst hji
        have hRec := ih hLower (m.child j) hl hGood hOldChild hNewChild hStoredChild
        obtain ⟨r, t', hRun, hGetD, hEvolves, hX⟩ := hRec.map (Item.prepend [j])
        rw [hItem, delete_prepend]
        refine ⟨r, t', hRun, ?_, hEvolves, ?_⟩
        · rw [item_succ, canonicalNode_set, compact_update_singleton hOcc]
          exact hGetD
        · apply available_branches_set (hStored.available.evolves hEvolves) _ hX
          intro hTwo
          exact absurd hTwo (not_le.mpr (occupied_lt_two (i := j) fun x hx => by
            rw [canonicalNode_set, Function.update_of_ne hx]
            exact eq_empty_of_occupied hOcc hx))
      · rw [hAbsent (eq_empty_of_occupied hOcc hji), hItem]
        refine Rewrites.of_eq (r := none) hGood ?_ rfl hStored.available
        cases canonicalNode env.ptr n m i with
        | emptyItem => rfl
        | leaf p w =>
          simp only [Item.prepend, List.cons_append, List.nil_append, delete, List.cons.injEq, Ne.symm hji,
            false_and, if_false]
          rfl
        | nodePtr p q =>
          simp only [Item.prepend, List.cons_append, List.nil_append, delete, commonPrefix_cons_ne hji]
          rfl
    · have hItem : item env.ptr (n + 1) m = .nodePtr [] (env.ptr (canonicalNode env.ptr n m)) :=
        compact_of_branching hOcc
      have hBelow := rewrites_below hS true (fun c => delete env fuel c l) hGood
        hOcc hOld hNew hStored (by simp) fun t₁ hEvolves₁ => ih (by omega) (m.child j) hl
          hEvolves₁.faithful hOldChild hNewChild (hEvolves₁.store_eq ▸ hStoredChild)
      have hDelete : delete env (fuel + 1) (item env.ptr (n + 1) m) (j :: l) = (do
          let childNode ← loadNode env (env.ptr (canonicalNode env.ptr n m)) false
          match ← delete env fuel (childNode j) l with
          | some childItem =>
            return some (← saveNodeAndCreateItem env (Function.update childNode j childItem) [] true)
          | none => return none) := by
        rewrite [hItem, delete, commonPrefix_nil]
        rfl
      rw [hDelete]
      exact hBelow

end

end F1r3Node.History
