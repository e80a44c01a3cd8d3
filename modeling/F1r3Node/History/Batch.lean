import F1r3Node.History.UpdateDelete

/-! # Batches of actions

`makeActions` on the canonical node of a map yields the canonical node of the map with the batch applied.
-/

namespace F1r3Node.History

open Shared

def HistoryAction.value : HistoryAction → Option Bytes
  | .insert _ hash => some hash.1
  | .delete _ => none

def KeyMap.apply (m : KeyMap) (action : HistoryAction) : KeyMap := m.set action.key action.value

def KeyMap.applyAll (m : KeyMap) (actions : List HistoryAction) : KeyMap := actions.foldl KeyMap.apply m

def groupOf (i : UInt8) (actions : List HistoryAction) : List HistoryAction :=
  actions.filter fun a => a.key.head? = some i

theorem key_trimKey (a : HistoryAction) : a.trimKey.key = a.key.tail := by
  cases a <;> rfl

theorem value_trimKey (a : HistoryAction) : a.trimKey.value = a.value := by
  cases a <;> rfl

theorem KeyMap.applyAll_cons (m : KeyMap) (a : HistoryAction) (actions : List HistoryAction) :
    m.applyAll (a :: actions) = (m.apply a).applyAll actions := rfl

variable {actions : List HistoryAction}

theorem KeyMap.child_applyAll (m : KeyMap) (i : UInt8)
    (hNe : ∀ a ∈ actions, a.key ≠ []) :
    (m.applyAll actions).child i = (m.child i).applyAll (trimKeys (groupOf i actions)) := by
  induction actions generalizing m with
  | nil => rfl
  | cons a actions ih =>
    obtain ⟨j, l, hKey⟩ := List.exists_cons_of_ne_nil (hNe a List.mem_cons_self)
    rw [KeyMap.applyAll_cons, ih (m.apply a) fun b hb => hNe b (List.mem_cons_of_mem _ hb), KeyMap.apply, hKey]
    by_cases hji : j = i
    · subst hji
      rw [KeyMap.child_set_same]
      simp [groupOf, hKey, trimKeys, KeyMap.applyAll, KeyMap.apply, key_trimKey, value_trimKey]
    · rw [KeyMap.child_set_of_ne m (Ne.symm hji)]
      simp [groupOf, hKey, trimKeys, hji]

theorem KeyMap.applyAll_of_not_mem (m : KeyMap) {k : Bytes}
    (hk : ∀ a ∈ actions, a.key ≠ k) : m.applyAll actions k = m k := by
  induction actions generalizing m with
  | nil => rfl
  | cons a actions ih =>
    rw [KeyMap.applyAll_cons, ih (m.apply a) fun b hb => hk b (List.mem_cons_of_mem _ hb), KeyMap.apply,
      KeyMap.set, Function.update_of_ne (hk a List.mem_cons_self).symm]

theorem KeyMap.applyAll_of_mem (m : KeyMap)
    (hNodup : (actions.map HistoryAction.key).Nodup) {a : HistoryAction} (ha : a ∈ actions) :
    m.applyAll actions a.key = a.value := by
  induction actions generalizing m with
  | nil => cases ha
  | cons b actions ih =>
    obtain ⟨hHead, hTail⟩ := List.nodup_cons.mp hNodup
    rw [KeyMap.applyAll_cons]
    rcases List.mem_cons.mp ha with rfl | ha
    · have hLater : ∀ b ∈ actions, b.key ≠ a.key := fun b hb hKey =>
        hHead (List.mem_map.mpr ⟨b, hb, hKey⟩)
      rw [KeyMap.applyAll_of_not_mem _ hLater, KeyMap.apply, KeyMap.set, Function.update_self]
    · exact ih _ hTail ha

theorem KeyMap.applyAll_deletes {m : KeyMap}
    (hDelete : ∀ a ∈ actions, a.value = none) {k : Bytes} (hk : m k = none) :
    m.applyAll actions k = none := by
  induction actions generalizing m with
  | nil => exact hk
  | cons a actions ih =>
    apply ih fun b hb => hDelete b (List.mem_cons_of_mem _ hb)
    rw [KeyMap.apply, KeyMap.set, Function.update_apply, hDelete a List.mem_cons_self, hk, ite_self]

theorem grouping_eq (hNe : ∀ a ∈ actions, a.key ≠ []) :
    ∃ groups, grouping actions = .ok groups ∧
      (∀ g ∈ groups, g.2 = groupOf g.1 actions ∧ g.2 ≠ []) ∧
      (∀ i, groupOf i actions ≠ [] → i ∈ groups.map Prod.fst) := by
  have hAny : ¬ actions.any (fun a => a.key.isEmpty) = true := by
    rw [List.any_eq_true]
    rintro ⟨a, ha, hEmpty⟩
    exact hNe a ha (List.isEmpty_iff.mp hEmpty)
  refine ⟨_, by rw [grouping, if_neg hAny], ?_, ?_⟩
  · intro g hg
    obtain ⟨hMem, hNil⟩ := List.mem_filter.mp hg
    obtain ⟨i, -, rfl⟩ := List.mem_map.mp hMem
    exact ⟨rfl, by simpa using hNil⟩
  · intro i hi
    apply List.mem_map.mpr
    refine ⟨(i, groupOf i actions), List.mem_filter.mpr ⟨?_, by simpa using hi⟩, rfl⟩
    exact List.mem_map.mpr ⟨i, mem_allBytes i, rfl⟩

theorem updateItems_eq (old new : Node) (results : List (UInt8 × Option Item)) (base : Node)
    (hResults : ∀ p ∈ results, p.2.getD (old p.1) = new p.1)
    (hBase : ∀ i, base i = new i ∨ i ∈ results.map Prod.fst ∧ base i = old i) :
    updateItems base results = new := by
  induction results generalizing base with
  | nil =>
    funext i
    rcases hBase i with h | ⟨h, -⟩
    · exact h
    · cases h
  | cons p results ih =>
    obtain ⟨i, r⟩ := p
    have hHead : r.getD (old i) = new i := hResults (i, r) List.mem_cons_self
    have hTail : ∀ p ∈ results, p.2.getD (old p.1) = new p.1 := fun p hp =>
      hResults p (List.mem_cons_of_mem _ hp)
    rw [updateItems, List.foldl_cons]
    apply ih _ hTail
    intro j
    by_cases hji : j = i
    · subst hji
      left
      cases r with
      | none =>
        rcases hBase j with h | ⟨-, h⟩
        · exact h
        · exact h.trans hHead
      | some c => simpa [updateItem] using hHead
    · have hSame : updateItem base (i, r) j = base j := by
        cases r with
        | none => rfl
        | some c => exact Function.update_of_ne hji _ _
      rw [hSame]
      rcases hBase j with h | ⟨h, hOld⟩
      · exact .inl h
      · rcases List.mem_cons.mp h with h | h
        · exact absurd h hji
        · exact .inr ⟨h, hOld⟩

section

variable {env : TreeEnv} {S : Set Node} {t t' : RadixTreeImpl}

theorem mapM_groups {f : UInt8 × List HistoryAction → TreeM (UInt8 × Option Item)} (old new : Node)
    {X : UInt8 → Set Node} {store : Bytes → Option Bytes} (groups : List (UInt8 × List HistoryAction))
    (hGroup : ∀ g ∈ groups, ∀ t, Faithful env S t → t.store = store →
      ∃ r t', (f g).run t = .ok (g.1, r) t' ∧ r.getD (old g.1) = new g.1 ∧ Evolves env S t t' ∧
        Available env t' (X g.1))
    (hGood : Faithful env S t) (hStore : t.store = store) :
    ∃ results t', (groups.mapM f).run t = .ok results t' ∧
      results.map Prod.fst = groups.map Prod.fst ∧
      (∀ p ∈ results, p.2.getD (old p.1) = new p.1) ∧ Evolves env S t t' ∧
      ∀ g ∈ groups, Available env t' (X g.1) := by
  induction groups generalizing t with
  | nil => exact ⟨[], t, rfl, rfl, by simp, .refl hGood, by simp⟩
  | cons g groups ih =>
    obtain ⟨r, t₁, hRun, hNew, hEvolves, hX⟩ := hGroup g List.mem_cons_self t hGood hStore
    obtain ⟨results, t₂, hRuns, hFst, hNews, hEvolves', hXs⟩ := ih
      (fun g' hg' => hGroup g' (List.mem_cons_of_mem _ hg')) hEvolves.faithful
      (hEvolves.store_eq.trans hStore)
    refine ⟨(g.1, r) :: results, t₂, ?_, ?_, ?_, hEvolves.trans hEvolves', ?_⟩
    · rw [List.mapM_cons, run_bind_ok hRun, run_bind_ok hRuns]
      rfl
    · rw [List.map_cons, List.map_cons, hFst]
    · intro p hp
      rcases List.mem_cons.mp hp with rfl | hp
      · exact hNew
      · exact hNews p hp
    · intro g' hg'
      rcases List.mem_cons.mp hg' with rfl | hg'
      · exact hX.evolves hEvolves'
      · exact hXs g' hg'

variable (hS : CollisionFree env S)

include hS

variable {n : Nat} {m : KeyMap}

theorem constructNodeFromItem_spec (hGood : Faithful env S t)
    (hOld : branches env.ptr (n + 1) m ⊆ S) (hStored : Stored env t.store (branches env.ptr (n + 1) m)) :
    ∃ t', (constructNodeFromItem env (item env.ptr (n + 1) m)).run t =
      .ok (canonicalNode env.ptr n m) t' ∧ Evolves env S t t' := by
  rcases occupied_cases (canonicalNode env.ptr n m) with hOcc | ⟨i, hOcc⟩ | hOcc
  · have hItem : item env.ptr (n + 1) m = .emptyItem := compact_of_nil hOcc
    have hNode : canonicalNode env.ptr n m = emptyNode := funext (occupied_eq_nil_iff.mp hOcc)
    rw [hItem, hNode]
    exact ⟨t, rfl, .refl hGood⟩
  · have hItem : item env.ptr (n + 1) m = (canonicalNode env.ptr n m i).prepend [i] :=
      compact_of_singleton hOcc
    have hNode : Function.update emptyNode i (canonicalNode env.ptr n m i) = canonicalNode env.ptr n m := by
      funext j
      by_cases hji : j = i
      · rw [hji, Function.update_self]
      · rw [Function.update_of_ne hji, eq_empty_of_occupied hOcc hji]
        rfl
    have hNe : canonicalNode env.ptr n m i ≠ .emptyItem :=
      mem_occupied.mp (hOcc ▸ List.mem_singleton_self i)
    refine ⟨t, ?_, .refl hGood⟩
    rw [hItem]
    nth_rewrite 2 [← hNode]
    cases hc : canonicalNode env.ptr n m i with
    | emptyItem => exact absurd hc hNe
    | leaf p w => rfl
    | nodePtr p q => rfl
  · have hItem : item env.ptr (n + 1) m = .nodePtr [] (env.ptr (canonicalNode env.ptr n m)) :=
      compact_of_branching hOcc
    have hMem : canonicalNode env.ptr n m ∈ branches env.ptr (n + 1) m := .inl ⟨rfl, hOcc⟩
    rw [hItem, constructNodeFromItem]
    exact loadNode_spec hS hGood (hOld hMem) (hStored _ hMem) false

variable {i : UInt8}

theorem processOneAction_spec {a : HistoryAction}
    (hLength : a.key.length = n + 1) (hHead : a.key.head? = some i) (hGood : Faithful env S t)
    (hOld : branches env.ptr n (m.child i) ⊆ S)
    (hNew : branches env.ptr n ((m.child i).apply a.trimKey) ⊆ S)
    (hStored : Stored env t.store (branches env.ptr n (m.child i))) :
    Rewrites env S t (processOneAction env a (item env.ptr n (m.child i))) (item env.ptr n (m.child i))
      (item env.ptr n ((m.child i).apply a.trimKey)) (branches env.ptr n ((m.child i).apply a.trimKey)) := by
  have hTail : a.key.tail.length = n := by rw [List.length_tail, hLength, Nat.add_sub_cancel]
  cases a with
  | insert key hash =>
    exact update_spec hS n (by rw [show key.length = n + 1 from hLength]; exact Nat.lt_succ_self n)
      (m.child i) hTail hash.1 hGood hOld hNew hStored
  | delete key =>
    exact delete_spec hS n (by rw [show key.length = n + 1 from hLength]; exact Nat.lt_succ_self n)
      (m.child i) hTail hGood hOld hNew hStored

def MakesActions (env : TreeEnv) (S : Set Node) (n : Nat)
    (recurse : Node → List HistoryAction → TreeM (Option Node)) : Prop :=
  ∀ (m : KeyMap) (actions : List HistoryAction) (t : RadixTreeImpl),
    (∀ a ∈ actions, a.key.length = n + 1) → (actions.map HistoryAction.key).Nodup →
    Faithful env S t → (∀ i, branches env.ptr n (m.child i) ⊆ S) →
    (∀ i, branches env.ptr n ((m.applyAll actions).child i) ⊆ S) →
    (∀ i, Stored env t.store (branches env.ptr n (m.child i))) →
    Rewrites env S t (recurse (canonicalNode env.ptr n m) actions) (canonicalNode env.ptr n m)
      (canonicalNode env.ptr n (m.applyAll actions))
      { x | ∃ i, x ∈ branches env.ptr n ((m.applyAll actions).child i) }

variable {actions : List HistoryAction} {recurse : Node → List HistoryAction → TreeM (Option Node)}

theorem processNonEmptyActions_spec
    (hRecurse : MakesActions env S n recurse)
    (hLength : ∀ a ∈ trimKeys actions, a.key.length = n + 1)
    (hNodup : ((trimKeys actions).map HistoryAction.key).Nodup) (hGood : Faithful env S t)
    (hOld : branches env.ptr (n + 1) m ⊆ S)
    (hNew : branches env.ptr (n + 1) (m.applyAll (trimKeys actions)) ⊆ S)
    (hStored : Stored env t.store (branches env.ptr (n + 1) m)) :
    Rewrites env S t (processNonEmptyActions env recurse actions (item env.ptr (n + 1) m))
      (item env.ptr (n + 1) m) (item env.ptr (n + 1) (m.applyAll (trimKeys actions)))
      (branches env.ptr (n + 1) (m.applyAll (trimKeys actions))) := by
  obtain ⟨t₁, hConstruct, hEvolves₁⟩ := constructNodeFromItem_spec hS hGood hOld hStored
  obtain ⟨r, t₂, hRun, hGetD, hEvolves₂, hX⟩ := hRecurse m (trimKeys actions) t₁ hLength hNodup
    hEvolves₁.faithful (fun i => (branches_child_subset n m i).trans hOld)
    (fun i => (branches_child_subset n _ i).trans hNew)
    (fun i => hEvolves₁.store_eq ▸ hStored.mono (branches_child_subset n m i))
  have hEvolves := hEvolves₁.trans hEvolves₂
  cases r with
  | none =>
    have hSame : canonicalNode env.ptr n m = canonicalNode env.ptr n (m.applyAll (trimKeys actions)) := hGetD
    refine ⟨none, t₂, ?_, ?_, hEvolves, ?_⟩
    · rw [processNonEmptyActions, run_bind_ok hConstruct, run_bind_ok hRun]
      rfl
    · rw [item_succ, item_succ, ← hSame]
      rfl
    · rintro x (⟨rfl, hTwo⟩ | hx)
      · rw [← hSame] at hTwo ⊢
        exact hStored.available.evolves hEvolves _ (.inl ⟨rfl, hTwo⟩)
      · exact hX x hx
  | some newNode =>
    obtain rfl : newNode = canonicalNode env.ptr n (m.applyAll (trimKeys actions)) := hGetD
    obtain ⟨t₃, hSave, hEvolves₃, hRoot⟩ := saveNodeAndCreateItem_spec hS hEvolves₂.faithful []
      fun hTwo => hNew (.inl ⟨rfl, hTwo⟩)
    refine ⟨some (item env.ptr (n + 1) (m.applyAll (trimKeys actions))), t₃, ?_, rfl,
      hEvolves.trans hEvolves₃, ?_⟩
    · rw [processNonEmptyActions, run_bind_ok hConstruct, run_bind_ok hRun]
      simp only
      rw [run_bind_ok hSave]
      rfl
    · rintro x (⟨rfl, hTwo⟩ | hx)
      · exact hRoot hTwo _ rfl
      · exact hX.evolves hEvolves₃ x hx

omit hS in
theorem nodup_trimKeys
    (hHead : ∀ a ∈ actions, a.key.head? = some i) (hNodup : (actions.map HistoryAction.key).Nodup) :
    ((trimKeys actions).map HistoryAction.key).Nodup := by
  have hKeys : actions.map HistoryAction.key =
      ((trimKeys actions).map HistoryAction.key).map (List.cons i) := by
    rw [trimKeys, List.map_map, List.map_map]
    apply List.map_congr_left
    intro a ha
    obtain ⟨l, hl⟩ := List.head?_eq_some_iff.mp (hHead a ha)
    simp [key_trimKey, hl]
  rw [hKeys] at hNodup
  exact hNodup.of_map _

theorem processSeveralActions_spec
    (hRecurse : MakesActions env S n recurse)
    (hLength : ∀ a ∈ actions, a.key.length = n + 2) (hHead : ∀ a ∈ actions, a.key.head? = some i)
    (hNodup : (actions.map HistoryAction.key).Nodup) (hGood : Faithful env S t)
    (hOld : branches env.ptr (n + 1) m ⊆ S)
    (hNew : branches env.ptr (n + 1) (m.applyAll (trimKeys actions)) ⊆ S)
    (hStored : Stored env t.store (branches env.ptr (n + 1) m)) :
    Rewrites env S t (processSeveralActions env recurse actions (item env.ptr (n + 1) m))
      (item env.ptr (n + 1) m) (item env.ptr (n + 1) (m.applyAll (trimKeys actions)))
      (branches env.ptr (n + 1) (m.applyAll (trimKeys actions))) := by
  have hLength' : ∀ a ∈ trimKeys actions, a.key.length = n + 1 := by
    intro a ha
    obtain ⟨b, hb, rfl⟩ := List.mem_map.mp ha
    rw [key_trimKey, List.length_tail, hLength b hb]
    omega
  have hNonEmpty := processNonEmptyActions_spec hS hRecurse hLength' (nodup_trimKeys hHead hNodup) hGood
    hOld hNew hStored
  rw [processSeveralActions, clearingDeleteActions]
  split_ifs with hClear
  · obtain ⟨hEmpty, hAll⟩ := hClear
    have hDelete : ∀ a ∈ trimKeys actions, a.value = none := by
      intro a ha
      obtain ⟨b, hb, rfl⟩ := List.mem_map.mp ha
      have hb' := List.all_eq_true.mp hAll b hb
      rw [value_trimKey]
      cases b with
      | insert => cases hb'
      | delete => rfl
    have hSame : ∀ k : Bytes, k.length = n + 1 → m.applyAll (trimKeys actions) k = m k := by
      intro k hk
      have hNone := (item_eq_empty_iff _ _).mp hEmpty k hk
      rw [KeyMap.applyAll_deletes hDelete hNone, hNone]
    rw [item_congr _ hSame, branches_congr _ hSame]
    exact .of_eq (r := none) hGood rfl rfl hStored.available
  · cases actions with
    | nil => exact .of_eq (r := none) hGood rfl rfl hStored.available
    | cons a actions => exact hNonEmpty

omit hS in
theorem groupOf_singleton_of_length_one {a b : HistoryAction}
    {rest : List HistoryAction} (hLength : ∀ a ∈ actions, a.key.length = 1)
    (hHead : ∀ a ∈ actions, a.key.head? = some i) (hNodup : (actions.map HistoryAction.key).Nodup)
    (hActions : actions = a :: b :: rest) : False := by
  have hKey : ∀ c ∈ actions, c.key = [i] := by
    intro c hc
    obtain ⟨l, hl⟩ := List.head?_eq_some_iff.mp (hHead c hc)
    have hOne := hLength c hc
    rw [hl, List.length_cons] at hOne
    rw [hl, List.eq_nil_of_length_eq_zero (Nat.succ.inj hOne)]
  subst hActions
  rw [List.map_cons, List.map_cons, hKey a (by simp), hKey b (by simp)] at hNodup
  simp at hNodup

theorem processGroup_spec
    (hRecurse : ∀ n', n = n' + 1 → MakesActions env S n' recurse)
    (hLength : ∀ a ∈ actions, a.key.length = n + 1) (hHead : ∀ a ∈ actions, a.key.head? = some i)
    (hNodup : (actions.map HistoryAction.key).Nodup) (hNe : actions ≠ []) (hGood : Faithful env S t)
    (hOld : branches env.ptr n (m.child i) ⊆ S)
    (hNew : branches env.ptr n ((m.child i).applyAll (trimKeys actions)) ⊆ S)
    (hStored : Stored env t.store (branches env.ptr n (m.child i))) :
    ∃ r t', (processGroup env recurse (canonicalNode env.ptr n m) (i, actions)).run t = .ok (i, r) t' ∧
      r.getD (canonicalNode env.ptr n m i) = item env.ptr n ((m.child i).applyAll (trimKeys actions)) ∧
      Evolves env S t t' ∧
      Available env t' (branches env.ptr n ((m.child i).applyAll (trimKeys actions))) := by
  rcases hActions : actions with _ | ⟨a, _ | ⟨b, rest⟩⟩
  · exact absurd hActions hNe
  · subst hActions
    obtain ⟨r, t', hRun, hGetD, hEvolves, hX⟩ := processOneAction_spec hS (hLength a (by simp))
      (hHead a (by simp)) hGood hOld hNew hStored
    refine ⟨r, t', ?_, hGetD, hEvolves, hX⟩
    rw [processGroup]
    exact run_bind_ok hRun
  · cases n with
    | zero => exact absurd (groupOf_singleton_of_length_one hLength hHead hNodup hActions) id
    | succ n =>
      obtain ⟨r, t', hRun, hGetD, hEvolves, hX⟩ := processSeveralActions_spec hS (hRecurse n rfl) hLength
        hHead hNodup hGood hOld hNew hStored
      rw [hActions] at hRun hGetD hX
      refine ⟨r, t', ?_, hGetD, hEvolves, hX⟩
      rw [processGroup]
      · exact run_bind_ok hRun
      · simp

variable {fuel : Nat}

theorem makeActions_step
    (hRecurse : ∀ n', n = n' + 1 → MakesActions env S n' (makeActions env fuel)) :
    MakesActions env S n (makeActions env (fuel + 1)) := by
  intro m actions t hLength hNodup hGood hOld hNew hStored
  have hNe : ∀ a ∈ actions, a.key ≠ [] := by
    intro a ha hNil
    have h := hLength a ha
    rw [hNil, List.length_nil] at h
    omega
  obtain ⟨groups, hGrouping, hGroups, hCover⟩ := grouping_eq hNe
  have hChild : ∀ i, (m.applyAll actions).child i = (m.child i).applyAll (trimKeys (groupOf i actions)) :=
    fun i => KeyMap.child_applyAll m i hNe
  obtain ⟨results, t', hRun, hFst, hResults, hEvolves, hX⟩ := mapM_groups (t := t)
    (f := processGroup env (makeActions env fuel) (canonicalNode env.ptr n m))
    (canonicalNode env.ptr n m) (canonicalNode env.ptr n (m.applyAll actions))
    (X := fun i => branches env.ptr n ((m.applyAll actions).child i)) groups
    (by
      rintro ⟨i, group⟩ hMem t₁ hGood₁ hStore₁
      obtain ⟨hGroup, hNil⟩ := hGroups _ hMem
      obtain rfl : group = groupOf i actions := hGroup
      have hSub : ∀ a ∈ groupOf i actions, a ∈ actions ∧ a.key.head? = some i := by
        intro a ha
        obtain ⟨ha, hi⟩ := List.mem_filter.mp ha
        exact ⟨ha, by simpa using hi⟩
      have hNodup' : ((groupOf i actions).map HistoryAction.key).Nodup :=
        hNodup.sublist (List.filter_sublist.map _)
      simp only [canonicalNode, hChild i]
      exact processGroup_spec hS hRecurse (fun a ha => hLength a (hSub a ha).1) (fun a ha => (hSub a ha).2)
        hNodup' hNil hGood₁ (hOld i) (hChild i ▸ hNew i) (hStore₁ ▸ hStored i))
    hGood rfl
  have hUnchanged : ∀ i, groupOf i actions = [] → (m.applyAll actions).child i = m.child i := by
    intro i hi
    rw [hChild i, hi]
    rfl
  have hNode : updateItems (canonicalNode env.ptr n m) results = canonicalNode env.ptr n (m.applyAll actions) := by
    apply updateItems_eq (canonicalNode env.ptr n m) _ _ _ hResults
    intro i
    by_cases hi : groupOf i actions = []
    · left
      rw [canonicalNode, canonicalNode, hUnchanged i hi]
    · exact .inr ⟨hFst ▸ hCover i hi, rfl⟩
  refine ⟨if canonicalNode env.ptr n (m.applyAll actions) ≠ canonicalNode env.ptr n m then
    some (canonicalNode env.ptr n (m.applyAll actions)) else none, t', ?_, ?_, hEvolves, ?_⟩
  · rw [makeActions, hGrouping]
    simp only
    rw [run_bind_ok hRun, hNode]
    rfl
  · split_ifs with hEq
    · rfl
    · exact (not_not.mp hEq).symm
  · rintro x ⟨i, hx⟩
    by_cases hi : groupOf i actions = []
    · rw [hUnchanged i hi] at hx
      exact (hStored i).available.evolves hEvolves x hx
    · obtain ⟨g, hg, rfl⟩ := List.mem_map.mp (hCover i hi)
      exact hX g hg x hx

theorem makeActions_spec (n : Nat) (hFuel : n < fuel) :
    MakesActions env S n (makeActions env fuel) := by
  induction n generalizing fuel with
  | zero =>
    obtain ⟨fuel, rfl⟩ : ∃ f, fuel = f + 1 := ⟨fuel - 1, by omega⟩
    exact makeActions_step hS fun n' h => by omega
  | succ n ih =>
    obtain ⟨fuel, rfl⟩ : ∃ f, fuel = f + 1 := ⟨fuel - 1, by omega⟩
    apply makeActions_step hS
    intro n' h
    obtain rfl : n = n' := by omega
    exact ih (by omega)

theorem readAt_spec (n : Nat) (hFuel : n < fuel) (m : KeyMap) {k : Bytes}
    (hk : k.length = n + 1) (hGood : Faithful env S t) (hOld : ∀ i, branches env.ptr n (m.child i) ⊆ S)
    (hStored : ∀ i, Stored env t.store (branches env.ptr n (m.child i))) :
    ∃ t', (readAt env fuel (canonicalNode env.ptr n m) k).run t = .ok (m k) t' ∧ Evolves env S t t' := by
  induction n using Nat.strong_induction_on generalizing m k t fuel with
  | _ n ih =>
    obtain ⟨fuel, rfl⟩ : ∃ f, fuel = f + 1 := ⟨fuel - 1, by omega⟩
    obtain ⟨i, l, rfl⟩ := List.exists_cons_of_length_eq_add_one hk
    have hl : l.length = n := by simpa using hk
    rw [readAt]
    cases hItem : canonicalNode env.ptr n m i with
    | emptyItem =>
      refine ⟨t, ?_, .refl hGood⟩
      rw [show m (i :: l) = none from (item_eq_empty_iff n _).mp hItem l hl]
      rfl
    | leaf p v =>
      refine ⟨t, ?_, .refl hGood⟩
      rw [show m (i :: l) = if l = p then some v else none from (item_eq_leaf n hItem).2 l hl]
      simp only [eq_comm (a := p)]
      rfl
    | nodePtr p q =>
      obtain ⟨n', hn, rfl, hTwo, hSub, hNone⟩ := item_eq_nodePtr n hItem
      simp only
      split_ifs with hPrefix
      · obtain ⟨rest, rfl⟩ := List.isPrefixOf_iff_prefix.mp hPrefix
        have hRest : rest.length = n' + 1 := by
          rw [List.length_append] at hl
          omega
        have hMem : canonicalNode env.ptr n' ((m.child i).below p) ∈ branches env.ptr n (m.child i) :=
          hSub (.inl ⟨rfl, hTwo⟩)
        obtain ⟨t₁, hLoad, hEvolves₁⟩ := loadNode_spec hS hGood (hOld i hMem) (hStored i _ hMem) false
        have hBelow : ∀ j, branches env.ptr n' (((m.child i).below p).child j) ⊆
            branches env.ptr n (m.child i) := fun j =>
          (branches_child_subset n' _ j).trans hSub
        have hFuel' : n' < fuel := by omega
        obtain ⟨t₂, hRead, hEvolves₂⟩ := ih n' (by omega) hFuel' ((m.child i).below p) hRest
          hEvolves₁.faithful (fun j => (hBelow j).trans (hOld i))
          (fun j => hEvolves₁.store_eq ▸ (hStored i).mono (hBelow j))
        obtain ⟨next, tail, rfl⟩ := List.exists_cons_of_length_eq_add_one hRest
        refine ⟨t₂, ?_, hEvolves₁.trans hEvolves₂⟩
        rw [List.drop_left]
        simp only
        rw [run_bind_ok hLoad]
        exact hRead
      · refine ⟨t, ?_, .refl hGood⟩
        have hNot : ¬ p <+: l := fun h => hPrefix (List.isPrefixOf_iff_prefix.mpr h)
        rw [show m (i :: l) = none from hNone l hl hNot]
        rfl

end

end F1r3Node.History
