import F1r3Node.History.RadixHistory
import F1r3Node.History.RunNodes
import Mathlib.Data.List.Infix

/-! # Histories are functions of the reference map

After any sequence of batches the root is the canonical node of the reference map, and reading a key returns the value
of the map.
-/

namespace F1r3Node.History

open Shared

def historyAfter (env : TreeEnv) (store : Bytes → Option Bytes) (batches : List (List HistoryAction)) :
    Except Fault RadixHistory := do
  let h ← RadixHistory.create env (emptyRootNodeHash env) store
  h.processAll env batches

section

variable {env : TreeEnv} {S : Set Node} {t : RadixTreeImpl}

variable {k : Bytes}

theorem putAll_of_not_mem {nodes : List (Bytes × Bytes)} (hk : k ∉ nodes.map Prod.fst)
    (store : Bytes → Option Bytes) : putAll store nodes k = store k := by
  induction nodes generalizing store with
  | nil => rfl
  | cons kv nodes ih =>
    rw [List.map_cons, List.mem_cons, not_or] at hk
    rw [putAll, List.foldl_cons, ← putAll, ih hk.2, Function.update_of_ne hk.1]

theorem putAll_of_mem {nodes : List (Bytes × Bytes)} {b : Bytes} (hMem : (k, b) ∈ nodes)
    (hUnique : ∀ b', (k, b') ∈ nodes → b' = b) (store : Bytes → Option Bytes) :
    putAll store nodes k = some b := by
  induction nodes generalizing store with
  | nil => cases hMem
  | cons kv nodes ih =>
    rw [putAll, List.foldl_cons, ← putAll]
    by_cases hRest : (k, b) ∈ nodes
    · exact ih hRest (fun b' hb' => hUnique b' (List.mem_cons_of_mem _ hb')) _
    · obtain rfl : (k, b) = kv := (List.mem_cons.mp hMem).resolve_right hRest
      rw [putAll_of_not_mem _, Function.update_self]
      intro hKey
      obtain ⟨⟨k', b'⟩, hb', rfl⟩ := List.mem_map.mp hKey
      obtain rfl := hUnique b' (List.mem_cons_of_mem _ hb')
      exact hRest hb'

theorem mem_entries_iff (c : AList fun _ : Bytes => Bytes) (k b : Bytes) :
    (k, b) ∈ c.entries.map (fun e => (e.1, e.2)) ↔ c.lookup k = some b := by
  rw [List.mem_map]
  constructor
  · rintro ⟨⟨k', b'⟩, hMem, hEq⟩
    cases hEq
    exact AList.mem_lookup_iff.mpr hMem
  · intro h
    exact ⟨⟨k, b⟩, AList.mem_lookup_iff.mp h, rfl⟩

theorem pendingWrites_spec (hS : CollisionFree env S) (hGood : Faithful env S t) :
    ∃ nodes, pendingWrites.run t = .ok nodes t ∧ StoreConsistent env (putAll t.store nodes) S ∧
      ∀ X ⊆ S, Available env t X → Stored env (putAll t.store nodes) X := by
  have hEntry : ∀ k b, (k, b) ∈ t.cacheW.entries.map (fun e => (e.1, e.2)) →
      ∃ x ∈ S, k = env.ptr x ∧ b = Node.bytes x := fun k b h =>
    hGood.cacheW k b ((mem_entries_iff _ k b).mp h)
  have hCollision : (t.cacheW.entries.map fun e => (e.1, e.2)).filter
      (fun kv => decide ((t.store kv.1).isSome ∧ t.store kv.1 ≠ some kv.2)) = [] := by
    rw [List.filter_eq_nil_iff]
    rintro ⟨k, b⟩ hMem hBad
    obtain ⟨x, hx, rfl, rfl⟩ := hEntry k b hMem
    obtain ⟨hSome, hNe⟩ := of_decide_eq_true hBad
    obtain ⟨b, hb⟩ := Option.isSome_iff_exists.mp hSome
    exact hNe (hb.trans (congrArg some (hGood.store x hx b hb)))
  set nodes := (t.cacheW.entries.map fun e => (e.1, e.2)).filter fun kv => (t.store kv.1).isNone with hNodes
  have hUnique : ∀ x ∈ S, ∀ b, (env.ptr x, b) ∈ nodes → b = Node.bytes x := by
    intro x hx b hb
    obtain ⟨y, hy, hPtr, rfl⟩ := hEntry _ _ (List.mem_filter.mp hb).1
    rw [hS.injOn hx hy hPtr]
  refine ⟨nodes, ?_, ?_, ?_⟩
  · rw [pendingWrites, run_bind_ok (EStateM.run_get t)]
    simp only [hCollision]
    rfl
  · intro x hx b hb
    by_cases hKey : env.ptr x ∈ nodes.map Prod.fst
    · obtain ⟨⟨k, b'⟩, hMem, rfl⟩ := List.mem_map.mp hKey
      obtain rfl := hUnique x hx b' hMem
      rw [putAll_of_mem hMem fun b'' => hUnique x hx b''] at hb
      exact (Option.some.inj hb).symm
    · rw [putAll_of_not_mem hKey] at hb
      exact hGood.store x hx b hb
  · intro X hX hAvailable x hx
    rcases hAvailable x hx with hStore | hCache
    · rw [putAll_of_not_mem, hStore]
      intro hKey
      obtain ⟨⟨k, b⟩, hMem, rfl⟩ := List.mem_map.mp hKey
      have hNone := (List.mem_filter.mp hMem).2
      rw [hStore] at hNone
      cases hNone
    · cases hStore : t.store (env.ptr x) with
      | none =>
        apply putAll_of_mem _ fun b => hUnique x (hX hx) b
        exact List.mem_filter.mpr ⟨(mem_entries_iff _ _ _).mpr hCache, by rw [hStore]; rfl⟩
      | some b =>
        obtain rfl := hGood.store x (hX hx) b hStore
        rw [putAll_of_not_mem, hStore]
        intro hKey
        obtain ⟨⟨k, b'⟩, hMem, rfl⟩ := List.mem_map.mp hKey
        have hNone := (List.mem_filter.mp hMem).2
        rw [hStore] at hNone
        cases hNone

/-- The history is the canonical tree of the map, and its nodes are in the store. -/
structure Represents (env : TreeEnv) (S : Set Node) (L : Nat) (h : RadixHistory) (m : KeyMap) : Prop where
  rootNode : h.rootNode = canonicalRoot env L m
  rootHash : h.rootHash = env.ptr h.rootNode
  faithful : Faithful env S h.imple
  stored : Stored env h.imple.store (branches env.ptr L m)
  rootStored : h.rootNode = emptyNode ∨ h.imple.store h.rootHash = some (Node.bytes h.rootNode)
  noEmptyKey : L = 0 → m [] = none

variable {store : Bytes → Option Bytes}

/-- The nodes of `S` that one store holds are in the other one as well. -/
def Keeps (env : TreeEnv) (S : Set Node) (store store' : Bytes → Option Bytes) : Prop :=
  ∀ x ∈ S, store (env.ptr x) = some (Node.bytes x) → store' (env.ptr x) = some (Node.bytes x)

theorem faithful_new (hStore : StoreConsistent env store S) :
    Faithful env S (RadixTreeImpl.new store) := by
  refine ⟨hStore, ?_, ?_⟩
  · intro h x hx
    cases hx
  · intro h b hb
    cases hb

theorem hasNoDuplicates_iff (actions : List HistoryAction) :
    hasNoDuplicates actions = true ↔ (actions.map HistoryAction.key).Nodup := by
  rw [hasNoDuplicates, decide_eq_true_eq, ← List.dedup_eq_self]
  constructor
  · intro hLength
    exact (List.dedup_sublist _).eq_of_length (by simpa using hLength)
  · intro hSelf
    rw [hSelf, List.length_map]

variable {actions : List HistoryAction}

theorem lt_maxDepth {a : HistoryAction} (ha : a ∈ actions) :
    a.key.length < maxDepth actions := by
  induction actions with
  | nil => cases ha
  | cons b actions ih =>
    simp only [maxDepth, List.map_cons, List.foldr_cons] at ih ⊢
    rcases List.mem_cons.mp ha with rfl | ha
    · omega
    · have := ih ha
      omega

theorem stage_of_nodup {h : RadixHistory}
    (hNodup : (actions.map HistoryAction.key).Nodup) {result : RadixHistory × List (Bytes × Bytes)}
    {r : Option Node} {t₁ : RadixTreeImpl}
    (hActions : (makeActions env (maxDepth actions) h.rootNode actions).run h.imple = .ok r t₁)
    (hResult : (h.stageRoot env r).run t₁ = .ok result t) :
    h.stage env actions = .ok result := by
  rw [RadixHistory.stage, if_neg (not_not.mpr ((hasNoDuplicates_iff actions).mpr hNodup))]
  simp only
  rw [run_bind_ok hActions, hResult]

theorem process_nil {h : RadixHistory} :
    h.process env [] = .ok ⟨h.rootHash, h.rootNode, RadixTreeImpl.new h.imple.store⟩ := by
  have hActions : (makeActions env (maxDepth []) h.rootNode []).run h.imple = .ok none h.imple := by
    obtain ⟨groups, hGrouping, hGroups, -⟩ := @grouping_eq [] (by simp)
    have hNil : groups = [] := List.eq_nil_iff_forall_not_mem.mpr fun g hg =>
      (hGroups g hg).2 (hGroups g hg).1
    rw [show maxDepth [] = 0 + 1 from rfl, makeActions, hGrouping, hNil]
    simp [updateItems]
  rw [RadixHistory.process, stage_of_nodup (by simp) hActions rfl]
  rfl

variable {L : Nat} {h : RadixHistory} {m : KeyMap}

theorem Represents.process_nil (hRep : Represents env S L h m) :
    Represents env S L ⟨h.rootHash, h.rootNode, RadixTreeImpl.new h.imple.store⟩ m :=
  ⟨hRep.rootNode, hRep.rootHash, faithful_new hRep.faithful.store, hRep.stored, hRep.rootStored,
    hRep.noEmptyKey⟩

theorem Represents.process_keeps {n : Nat} (hS : CollisionFree env S)
    (hRep : Represents env S (n + 1) h m) (hValid : ValidBatch (n + 1) actions) (hNe : actions ≠ [])
    (hOld : treeNodes env (n + 1) m ⊆ S) (hNew : treeNodes env (n + 1) (m.applyAll actions) ⊆ S) :
    ∃ h', h.process env actions = .ok h' ∧ Represents env S (n + 1) h' (m.applyAll actions) ∧
      Keeps env S h.imple.store h'.imple.store := by
  obtain ⟨hNodup, hLength⟩ := hValid
  have hOld' : branches env.ptr (n + 1) m ⊆ S := Set.subset_union_right.trans hOld
  have hNew' : branches env.ptr (n + 1) (m.applyAll actions) ⊆ S := Set.subset_union_right.trans hNew
  obtain ⟨a, rest, hCons⟩ := List.exists_cons_of_ne_nil hNe
  have hFuel : n < maxDepth actions := by
    have ha : a ∈ actions := hCons ▸ List.mem_cons_self
    have hLt := lt_maxDepth ha
    rw [hLength a ha] at hLt
    omega
  obtain ⟨r, t₁, hRun, hGetD, hEvolves, hX⟩ := makeActions_spec hS n hFuel m actions h.imple hLength hNodup
    hRep.faithful (fun i => (branches_child_subset n m i).trans hOld')
    (fun i => (branches_child_subset n _ i).trans hNew')
    (fun i => hRep.stored.mono (branches_child_subset n m i))
  have hRoot : canonicalNode env.ptr n m = h.rootNode := hRep.rootNode.symm
  rw [hRoot] at hRun hGetD
  cases r with
  | none =>
    have hSame : ∀ k : Bytes, k.length = n + 1 → m.applyAll actions k = m k := by
      apply eq_of_canonicalNode_eq hS.injOn hNew' hOld'
      rw [hRoot, ← hGetD]
      rfl
    refine ⟨⟨h.rootHash, h.rootNode, RadixTreeImpl.new h.imple.store⟩, ?_, ?_, fun _ _ hx => hx⟩
    · rw [RadixHistory.process, stage_of_nodup hNodup hRun rfl]
      rfl
    · refine ⟨hGetD, hRep.rootHash, faithful_new hRep.faithful.store, ?_, hRep.rootStored,
        fun h => by omega⟩
      rw [branches_congr (n + 1) hSame]
      exact hRep.stored
  | some newRoot =>
    obtain rfl : newRoot = canonicalNode env.ptr n (m.applyAll actions) := hGetD
    have hMem : canonicalNode env.ptr n (m.applyAll actions) ∈ S := hNew (.inl rfl)
    obtain ⟨t₂, hSave, hEvolves₂, hRootAvailable⟩ := saveNode_spec hS hEvolves.faithful hMem
    obtain ⟨nodes, hPending, hConsistent, hPut⟩ := pendingWrites_spec hS hEvolves₂.faithful
    have hStore : t₂.store = h.imple.store := hEvolves₂.store_eq.trans hEvolves.store_eq
    rw [hStore] at hConsistent hPut
    have hBranches : Available env t₂ (branches env.ptr (n + 1) (m.applyAll actions)) := by
      rintro x (⟨rfl, -⟩ | hx)
      · exact hRootAvailable _ rfl
      · exact hX.evolves hEvolves₂ x hx
    refine ⟨⟨env.ptr (canonicalNode env.ptr n (m.applyAll actions)),
      canonicalNode env.ptr n (m.applyAll actions), RadixTreeImpl.new (putAll h.imple.store nodes)⟩, ?_, ?_, ?_⟩
    · rw [RadixHistory.process, stage_of_nodup hNodup hRun
        (by rw [RadixHistory.stageRoot, run_bind_ok hSave, run_bind_ok hPending]; rfl)]
      rfl
    · exact ⟨rfl, rfl, faithful_new hConsistent, hPut _ hNew' hBranches,
        .inr (hPut _ (Set.singleton_subset_iff.mpr hMem) hRootAvailable _ rfl), fun h => by omega⟩
    · intro x hx hStored
      refine hPut {x} (Set.singleton_subset_iff.mpr hx) ?_ x rfl
      rintro y rfl
      exact .inl (hStore.symm ▸ hStored)

theorem Represents.process {n : Nat} (hS : CollisionFree env S)
    (hRep : Represents env S (n + 1) h m) (hValid : ValidBatch (n + 1) actions) (hNe : actions ≠ [])
    (hOld : treeNodes env (n + 1) m ⊆ S) (hNew : treeNodes env (n + 1) (m.applyAll actions) ⊆ S) :
    ∃ h', h.process env actions = .ok h' ∧ Represents env S (n + 1) h' (m.applyAll actions) := by
  obtain ⟨h', hProcess, hRep', -⟩ := hRep.process_keeps hS hValid hNe hOld hNew
  exact ⟨h', hProcess, hRep'⟩

theorem process_error_of_length_zero (env : TreeEnv) (h : RadixHistory)
    (hValid : ValidBatch 0 actions) (hNe : actions ≠ []) : ∃ fault, h.process env actions = .error fault := by
  obtain ⟨a, rest, rfl⟩ := List.exists_cons_of_ne_nil hNe
  have hKey : a.key = [] := List.eq_nil_of_length_eq_zero (hValid.2 a List.mem_cons_self)
  have hGrouping : grouping (a :: rest) =
      .error (.radixTree (.prefixError "The length of all prefixes in the subtree must be the same.")) := by
    rw [grouping, if_pos (by simp [hKey])]
  refine ⟨.radixTree (.prefixError "The length of all prefixes in the subtree must be the same."), ?_⟩
  rw [RadixHistory.process, RadixHistory.stage,
    if_neg (not_not.mpr ((hasNoDuplicates_iff _).mpr hValid.1))]
  simp only [maxDepth, makeActions, hGrouping]
  rfl

theorem processAll_cons (h : RadixHistory) (actions : List HistoryAction)
    (batches : List (List HistoryAction)) :
    h.processAll env (actions :: batches) = h.process env actions >>= fun h' => h'.processAll env batches :=
  rfl

theorem reference_append (done : List (List HistoryAction)) (actions : List HistoryAction) :
    reference (done ++ [actions]) = (reference done).applyAll actions := by
  rw [reference, List.foldl_append]
  rfl

theorem Represents.processAll {all : List (List HistoryAction)} (hS : CollisionFree env (runNodes env L all))
    (hValid : ∀ actions ∈ all, ValidBatch L actions) (done todo : List (List HistoryAction))
    (hAll : done ++ todo <+: all) (hRep : Represents env (runNodes env L all) L h (reference done)) :
    (1 ≤ L → ∃ h', h.processAll env todo = .ok h') ∧
      ∀ h', h.processAll env todo = .ok h' → Represents env (runNodes env L all) L h' (reference (done ++ todo)) ∧
        Keeps env (runNodes env L all) h.imple.store h'.imple.store := by
  induction todo generalizing h done with
  | nil =>
    rw [List.append_nil]
    refine ⟨fun _ => ⟨h, rfl⟩, ?_⟩
    rintro h' ⟨⟩
    exact ⟨hRep, fun _ _ hx => hx⟩
  | cons actions todo ih =>
    rw [List.append_cons] at hAll ⊢
    have hPrefix : done ++ [actions] <+: all := (List.prefix_append _ _).trans hAll
    have hActions : ValidBatch L actions := hValid actions (hPrefix.subset (by simp))
    have hStep : ∀ h₁, h.process env actions = .ok h₁ →
        Represents env (runNodes env L all) L h₁ (reference (done ++ [actions])) →
        Keeps env (runNodes env L all) h.imple.store h₁.imple.store →
        (1 ≤ L → ∃ h', h.processAll env (actions :: todo) = .ok h') ∧
          ∀ h', h.processAll env (actions :: todo) = .ok h' →
            Represents env (runNodes env L all) L h' (reference (done ++ [actions] ++ todo)) ∧
              Keeps env (runNodes env L all) h.imple.store h'.imple.store := by
      intro h₁ hProcess hRep₁ hKeeps
      rw [processAll_cons, hProcess]
      obtain ⟨hTotal, hRest⟩ := ih (done ++ [actions]) hAll hRep₁
      exact ⟨hTotal, fun h' hRun => ⟨(hRest h' hRun).1, fun x hx hStored => (hRest h' hRun).2 x hx (hKeeps x hx hStored)⟩⟩
    by_cases hNil : actions = []
    · subst hNil
      refine hStep _ History.process_nil ?_ fun _ _ hx => hx
      rw [reference_append]
      exact hRep.process_nil
    · cases L with
      | zero =>
        obtain ⟨fault, hError⟩ := process_error_of_length_zero env h hActions hNil
        refine ⟨fun hPos => absurd hPos (by omega), ?_⟩
        intro h' hRun
        rw [processAll_cons, hError] at hRun
        cases hRun
      | succ n =>
        have hOld : treeNodes env (n + 1) (reference done) ⊆ runNodes env (n + 1) all := fun x hx =>
          ⟨done, (List.prefix_append _ _).trans hPrefix, hx⟩
        have hNew : treeNodes env (n + 1) ((reference done).applyAll actions) ⊆ runNodes env (n + 1) all := by
          rw [← reference_append]
          exact fun x hx => ⟨done ++ [actions], hPrefix, hx⟩
        obtain ⟨h₁, hProcess, hRep₁, hKeeps⟩ := hRep.process_keeps hS hActions hNil hOld hNew
        rw [← reference_append] at hRep₁
        exact hStep h₁ hProcess hRep₁ hKeeps

theorem load_root (hS : CollisionFree env S)
    (hStore : StoreConsistent env store S) {x : Node} (hx : x ∈ S)
    (hStored : x = emptyNode ∨ store (env.ptr x) = some (Node.bytes x)) :
    ∃ t', (loadNode env (env.ptr x) true).run (RadixTreeImpl.new store) = .ok x t' ∧
      Evolves env S (RadixTreeImpl.new store) t' := by
  have hNew := faithful_new hStore
  cases hRoot : store (env.ptr x) with
  | some b =>
    have hBytes : (RadixTreeImpl.new store).store (env.ptr x) = some (Node.bytes x) := by
      rw [← hStore x hx b hRoot]
      exact hRoot
    exact loadNode_spec hS hNew hx hBytes true
  | none =>
    obtain rfl := hStored.resolve_right (by simp [hRoot])
    refine ⟨_, ?_, .refl hNew⟩
    have hMiss : (RadixTreeImpl.new store).store (env.ptr emptyNode) = none := hRoot
    rw [loadNode, run_bind_ok (EStateM.run_get _)]
    simp only [hMiss]
    rfl

theorem create_spec (hS : CollisionFree env S) (hEmpty : emptyNode ∈ S)
    (hStore : StoreConsistent env store S) (L : Nat) :
    ∃ h, RadixHistory.create env (emptyRootNodeHash env) store = .ok h ∧ Represents env S L h emptyMap := by
  have hBranches : branches env.ptr L emptyMap = ∅ :=
    branches_of_empty L ((item_eq_empty_iff L emptyMap).mpr fun _ _ => rfl)
  have hHash : emptyRootNodeHash env = env.ptr emptyNode := rfl
  obtain ⟨t', hLoad, hEvolves⟩ := load_root hS hStore hEmpty (.inl rfl)
  refine ⟨⟨emptyRootNodeHash env, emptyNode, t'⟩, ?_, ⟨?_, rfl, hEvolves.faithful, ?_, .inl rfl, fun _ => rfl⟩⟩
  · rw [RadixHistory.create, runFresh, hHash, hLoad]
    rfl
  · exact (canonicalRoot_emptyMap L).symm
  · rw [hBranches]
    exact fun x hx => absurd hx (Set.notMem_empty x)

theorem Represents.reset (hS : CollisionFree env S) (hRep : Represents env S L h m)
    (hRoot : h.rootNode ∈ S) :
    ∃ h', h.reset env h.rootHash = .ok h' ∧ Represents env S L h' m := by
  have hStored := hRep.rootStored
  rw [hRep.rootHash] at hStored
  obtain ⟨t', hLoad, hEvolves⟩ := load_root hS hRep.faithful.store hRoot hStored
  have hStore : t'.store = h.imple.store := hEvolves.store_eq
  refine ⟨⟨h.rootHash, h.rootNode, t'⟩, ?_, ⟨hRep.rootNode, hRep.rootHash, hEvolves.faithful, ?_, ?_,
    hRep.noEmptyKey⟩⟩
  · rw [RadixHistory.reset, RadixHistory.create, runFresh, hRep.rootHash, hLoad]
    rfl
  · rw [hStore]
    exact hRep.stored
  · rw [hStore]
    exact hRep.rootStored

theorem emptyNode_mem_runNodes (L : Nat) (batches : List (List HistoryAction)) :
    emptyNode ∈ runNodes env L batches :=
  ⟨[], List.nil_prefix, .inl (canonicalRoot_emptyMap L).symm⟩

theorem historyAfter_spec (hL : L ≤ 127)
    {batches : List (List HistoryAction)} (hValid : ∀ actions ∈ batches, ValidBatch L actions)
    (hHash : Set.InjOn env.ptr (runNodes env L batches))
    (hStore : StoreConsistent env store (runNodes env L batches)) :
    (1 ≤ L → ∃ h, historyAfter env store batches = .ok h) ∧
      ∀ h, historyAfter env store batches = .ok h →
        Represents env (runNodes env L batches) L h (reference batches) := by
  have hS := collisionFree_runNodes hL hHash
  obtain ⟨h₀, hCreate, hRep₀⟩ := create_spec hS (emptyNode_mem_runNodes L batches) hStore L
  rw [historyAfter, hCreate]
  obtain ⟨hTotal, hRep⟩ := hRep₀.processAll hS hValid [] batches List.prefix_rfl
  exact ⟨hTotal, fun h hRun => (hRep h hRun).1⟩

theorem Represents.read (hS : CollisionFree env S) (hRep : Represents env S L h m)
    (hSub : branches env.ptr L m ⊆ S) (hk : k.length = L) :
    h.read env k = .ok (m k) := by
  cases L with
  | zero =>
    rw [List.eq_nil_of_length_eq_zero hk, hRep.noEmptyKey rfl]
    rfl
  | succ n =>
    have hFuel : n < k.length := by omega
    obtain ⟨t', hRead, -⟩ := readAt_spec hS n hFuel m hk hRep.faithful
      (fun i => (branches_child_subset n m i).trans hSub)
      (fun i => hRep.stored.mono (branches_child_subset n m i))
    have hRoot : h.rootNode = canonicalNode env.ptr n m := hRep.rootNode
    rw [RadixHistory.read, History.read, hRoot, hRead]

theorem branches_reference_subset (L : Nat) (batches : List (List HistoryAction)) :
    branches env.ptr L (reference batches) ⊆ runNodes env L batches := fun _ hx =>
  ⟨batches, List.prefix_rfl, .inr hx⟩

/-- Reading a history after any sequence of batches from the empty root agrees with the
reference map. Every such sequence goes through, except that keys of length zero are
refused. -/
theorem read_historyAfter (env : TreeEnv) (store : Bytes → Option Bytes) {L : Nat} (hL : L ≤ 127)
    {batches : List (List HistoryAction)} (hValid : ∀ actions ∈ batches, ValidBatch L actions)
    (hHash : Set.InjOn env.ptr (runNodes env L batches))
    (hStore : StoreConsistent env store (runNodes env L batches)) :
    (1 ≤ L → ∃ h, historyAfter env store batches = .ok h) ∧
      ∀ h, historyAfter env store batches = .ok h →
        ∀ k : Bytes, k.length = L → h.read env k = .ok (reference batches k) := by
  obtain ⟨hTotal, hRep⟩ := historyAfter_spec hL hValid hHash hStore
  refine ⟨hTotal, fun h hRun k hk => ?_⟩
  exact (hRep h hRun).read (collisionFree_runNodes hL hHash) (branches_reference_subset L batches) hk

/-- After any further batches the history can be reset to an earlier root and reads as it did then. -/
theorem read_earlier_root (env : TreeEnv) (store : Bytes → Option Bytes) {L : Nat} (hL : L ≤ 127)
    {done todo : List (List HistoryAction)} (hValid : ∀ actions ∈ done ++ todo, ValidBatch L actions)
    (hHash : Set.InjOn env.ptr (runNodes env L (done ++ todo)))
    (hStore : StoreConsistent env store (runNodes env L (done ++ todo))) :
    (1 ≤ L → ∃ h h', historyAfter env store done = .ok h ∧ h.processAll env todo = .ok h') ∧
      ∀ h h', historyAfter env store done = .ok h → h.processAll env todo = .ok h' →
        ∃ old, h'.reset env h.rootHash = .ok old ∧ old.rootNode = h.rootNode ∧
          ∀ k : Bytes, k.length = L → old.read env k = .ok (reference done k) := by
  have hS := collisionFree_runNodes hL hHash
  obtain ⟨h₀, hCreate, hRep₀⟩ := create_spec hS (emptyNode_mem_runNodes L _) hStore L
  obtain ⟨hTotal, hFirst⟩ := hRep₀.processAll hS hValid [] done (List.prefix_append _ _)
  rw [historyAfter, hCreate]
  refine ⟨fun hPos => ?_, fun h h' hDone hTodo => ?_⟩
  · obtain ⟨h, hDone⟩ := hTotal hPos
    obtain ⟨h', hTodo⟩ := ((hFirst h hDone).1.processAll hS hValid done todo List.prefix_rfl).1 hPos
    exact ⟨h, h', hDone, hTodo⟩
  have hRep := (hFirst h hDone).1
  obtain ⟨hLast, hKeeps⟩ := (hRep.processAll hS hValid done todo List.prefix_rfl).2 h' hTodo
  have hTree : treeNodes env L (reference done) ⊆ runNodes env L (done ++ todo) := fun x hx =>
    ⟨done, List.prefix_append _ _, hx⟩
  have hRoot : h.rootNode ∈ runNodes env L (done ++ todo) := hTree (.inl hRep.rootNode)
  -- the earlier root over the later store
  have hEarlier : Represents env (runNodes env L (done ++ todo)) L ⟨h.rootHash, h.rootNode, h'.imple⟩ (reference done) := by
    refine ⟨hRep.rootNode, hRep.rootHash, hLast.faithful, fun x hx => ?_, ?_, hRep.noEmptyKey⟩
    · exact hKeeps x (hTree (.inr hx)) (hRep.stored x hx)
    · exact hRep.rootStored.imp_right fun hStored => hRep.rootHash ▸ hKeeps _ hRoot (hRep.rootHash ▸ hStored)
  obtain ⟨old, hReset, hOld⟩ := hEarlier.reset hS hRoot
  refine ⟨old, hReset, hOld.rootNode.trans hRep.rootNode.symm, fun k hk => ?_⟩
  exact hOld.read hS (fun x hx => hTree (.inr hx)) hk

/-- Two sequences of batches with one reference map end in one root. -/
theorem root_historyAfter_eq (env : TreeEnv) (store store' : Bytes → Option Bytes) {L : Nat} (hL : L ≤ 127)
    {batches batches' : List (List HistoryAction)} (hValid : ∀ actions ∈ batches, ValidBatch L actions)
    (hValid' : ∀ actions ∈ batches', ValidBatch L actions)
    (hHash : Set.InjOn env.ptr (runNodes env L batches))
    (hHash' : Set.InjOn env.ptr (runNodes env L batches'))
    (hStore : StoreConsistent env store (runNodes env L batches))
    (hStore' : StoreConsistent env store' (runNodes env L batches'))
    (hSame : ∀ k : Bytes, k.length = L → reference batches k = reference batches' k) :
    (1 ≤ L → (∃ h, historyAfter env store batches = .ok h) ∧
      ∃ h', historyAfter env store' batches' = .ok h') ∧
    ∀ h h', historyAfter env store batches = .ok h → historyAfter env store' batches' = .ok h' →
      h.rootNode = h'.rootNode ∧ h.rootHash = h'.rootHash := by
  obtain ⟨hTotal, hRep⟩ := historyAfter_spec hL hValid hHash hStore
  obtain ⟨hTotal', hRep'⟩ := historyAfter_spec hL hValid' hHash' hStore'
  refine ⟨fun hPos => ⟨hTotal hPos, hTotal' hPos⟩, fun h h' hRun hRun' => ?_⟩
  have hRoot : h.rootNode = h'.rootNode := by
    rw [(hRep h hRun).rootNode, (hRep' h' hRun').rootNode]
    cases L with
    | zero => rfl
    | succ n => exact canonicalNode_congr n hSame
  refine ⟨hRoot, ?_⟩
  rw [(hRep h hRun).rootHash, (hRep' h' hRun').rootHash, hRoot]

end

def exampleEnv : TreeEnv where
  blake := paddingDigest
  order _ keys := keys
  perm_order _ keys := List.Perm.refl keys

def exampleValue : Blake2b256Hash := ⟨List.replicate 32 7, rfl⟩

def directBatches : List (List HistoryAction) := [[.insert [1] exampleValue]]

def detourBatches : List (List HistoryAction) :=
  [[.insert [2] exampleValue], [.delete [2], .insert [1] exampleValue]]

theorem validBatches_example : (∀ actions ∈ directBatches, ValidBatch 1 actions) ∧
    ∀ actions ∈ detourBatches, ValidBatch 1 actions := by
  simp [directBatches, detourBatches, ValidBatch, HistoryAction.key]

theorem mem_runNodes_one {env : TreeEnv} {batches : List (List HistoryAction)} {x : Node}
    (hx : x ∈ runNodes env 1 batches) : ∃ done ∈ batches.inits, x = canonicalNode env.ptr 0 (reference done) := by
  obtain ⟨done, hPrefix, hx⟩ := hx
  refine ⟨done, (List.mem_inits _ _).mpr hPrefix, ?_⟩
  rcases hx with rfl | ⟨rfl, -⟩ | ⟨i, hx⟩
  · rfl
  · rfl
  · exact absurd hx (Set.notMem_empty x)

theorem injOn_example (batches : List (List HistoryAction))
    (hNodup : (batches.inits.map fun d => exampleEnv.ptr (canonicalNode exampleEnv.ptr 0 (reference d))).Nodup) :
    Set.InjOn exampleEnv.ptr (runNodes exampleEnv 1 batches) := by
  intro x hx y hy h
  obtain ⟨d, hd, rfl⟩ := mem_runNodes_one hx
  obtain ⟨d', hd', rfl⟩ := mem_runNodes_one hy
  rw [List.inj_on_of_nodup_map hNodup hd hd' h]

theorem injOn_directBatches : Set.InjOn exampleEnv.ptr (runNodes exampleEnv 1 directBatches) :=
  injOn_example _ (by decide +kernel)

theorem injOn_detourBatches : Set.InjOn exampleEnv.ptr (runNodes exampleEnv 1 detourBatches) :=
  injOn_example _ (by decide +kernel)

theorem read_detourBatches : ∃ h, historyAfter exampleEnv (fun _ => none) detourBatches = .ok h ∧
    h.read exampleEnv [1] = .ok (some exampleValue.1) ∧ h.read exampleEnv [2] = .ok none := by
  obtain ⟨hTotal, hRead⟩ := read_historyAfter exampleEnv (fun _ => none) (by decide)
    validBatches_example.2 injOn_detourBatches (fun _ _ _ hb => by cases hb)
  obtain ⟨h, hRun⟩ := hTotal le_rfl
  exact ⟨h, hRun, hRead h hRun [1] rfl, hRead h hRun [2] rfl⟩

theorem read_detour_from_start : ∃ h h' old, historyAfter exampleEnv (fun _ => none) (detourBatches.take 1) = .ok h ∧
    h.processAll exampleEnv (detourBatches.drop 1) = .ok h' ∧ h'.reset exampleEnv h.rootHash = .ok old ∧
    old.read exampleEnv [2] = .ok (some exampleValue.1) := by
  have hValid : ∀ actions ∈ detourBatches.take 1 ++ detourBatches.drop 1, ValidBatch 1 actions := validBatches_example.2
  obtain ⟨hTotal, hEarlier⟩ := read_earlier_root exampleEnv (fun _ => none) (by decide) hValid injOn_detourBatches
    (fun _ _ _ hb => by cases hb)
  obtain ⟨h, h', hDone, hTodo⟩ := hTotal le_rfl
  obtain ⟨old, hReset, -, hRead⟩ := hEarlier h h' hDone hTodo
  exact ⟨h, h', old, hDone, hTodo, hReset, hRead [2] rfl⟩

theorem root_directBatches_eq_detourBatches :
    ∃ h h', historyAfter exampleEnv (fun _ => none) directBatches = .ok h ∧
      historyAfter exampleEnv (fun _ => none) detourBatches = .ok h' ∧ h.rootHash = h'.rootHash := by
  obtain ⟨hTotal, hRoot⟩ := root_historyAfter_eq exampleEnv (fun _ => none) (fun _ => none)
    (by decide) validBatches_example.1 validBatches_example.2 injOn_directBatches injOn_detourBatches
    (fun _ _ _ hb => by cases hb) (fun _ _ _ hb => by cases hb) (by
      intro k hk
      simp only [reference, directBatches, detourBatches, KeyMap.applyAll, KeyMap.apply, KeyMap.set,
        List.foldl_cons, List.foldl_nil, HistoryAction.key, HistoryAction.value, Function.update_apply,
        emptyMap]
      split_ifs <;> simp_all)
  obtain ⟨⟨h, hRun⟩, h', hRun'⟩ := hTotal le_rfl
  exact ⟨h, h', hRun, hRun', (hRoot h h' hRun hRun').2⟩

end F1r3Node.History
