import F1r3Node.Lib.KeyedFolds
import F1r3Node.Merging.TrieActions
import F1r3Node.Merging.UnavailableSplits

/-! # What the kept chains of a branch remove

The split of a branch accounts for every datum with its multiplicity; the changes are then combined by maxima, so a
datum that two chains add counts once.
-/

namespace F1r3Node.Merging

open Shared Lib Netting KeyedFolds

section applicable

variable {α β : Type}

theorem exists_of_bind_applicable {x : Applicable α} {f : α → Applicable β} {b : β}
    (h : (x >>= f).run = .ok (some b)) : ∃ a, x.run = .ok (some a) ∧ (f a).run = .ok (some b) := by
  rw [OptionT.run_bind] at h
  obtain ⟨result, hResult, hRest⟩ := exists_of_bind_ok h
  cases result with
  | none => cases hRest
  | some a => exact ⟨a, hResult, hRest⟩

theorem eq_of_lift_applicable {x : Except HistoryError α} {a : α} (h : (OptionT.lift x : Applicable α).run = .ok (some a)) :
    x = .ok a := by
  cases x with
  | error e => cases h
  | ok a' => rw [Option.some.inj (Except.ok.inj h)]

theorem foldlM_applicable_measure {σ : Type} {step : σ → α → Applicable σ} {measure : σ → Int} {added : α → Int}
    (hStep : ∀ s a s', (step s a).run = .ok (some s') → measure s' = measure s + added a) {items : List α} {s s' : σ}
    (h : (items.foldlM step s).run = .ok (some s')) : measure s' = measure s + (items.map added).sum := by
  induction items generalizing s with
  | nil =>
    obtain rfl := Option.some.inj (Except.ok.inj h)
    simp
  | cons a items ih =>
    rw [List.foldlM_cons] at h
    obtain ⟨next, hNext, hRest⟩ := exists_of_bind_applicable h
    rw [ih hRest, hStep s a next hNext, List.map_cons, List.sum_cons, Int.add_assoc]

end applicable

section counts

variable {codec : DatumCodec} {base : BaseHistory HotStoreBinaryAction} {k : Bytes} {init : List Bytes}

theorem count_removeFromAvailable {available removed left : List Bytes}
    (h : removeFromAvailable available removed = some left) (d : Bytes) :
    left.count d + removed.count d = available.count d := by
  induction removed generalizing available with
  | nil =>
    obtain rfl := Option.some.inj h
    rw [List.count_nil, Nat.add_zero]
  | cons item removed ih =>
    rw [removeFromAvailable, List.foldlM_cons] at h
    split_ifs at h with hMem
    · have hRest := ih h
      have hPos : 0 < available.count item := List.count_pos_iff.mpr hMem
      rw [List.count_erase] at hRest
      rw [List.count_cons]
      obtain rfl | hNe := eq_or_ne item d
      · simp only [beq_self_eq_true, if_true] at hRest ⊢
        omega
      · simp only [beq_iff_eq, hNe, if_false] at hRest ⊢
        omega
    · cases h

def leftAt (init : List Bytes) (data : AList fun _ : Bytes => List Bytes) (k : Bytes) : List Bytes :=
  (data.lookup k).getD init

theorem eq_leftAt_of_readAvailable (hInit : base.getDataProjBinary k = .ok init)
    {data : AList fun _ : Bytes => List Bytes} {items : List Bytes}
    (h : (readAvailable base.getDataProjBinary data k).run = .ok (some items)) : items = leftAt init data k := by
  rw [readAvailable] at h
  rw [leftAt]
  cases hLookup : data.lookup k with
  | some found =>
    rw [hLookup] at h
    exact (Option.some.inj (Except.ok.inj h)).symm
  | none =>
    rw [hLookup] at h
    have hRead := eq_of_lift_applicable h
    rw [hInit] at hRead
    exact (Except.ok.inj hRead).symm

theorem tally_eq_count (change : ChannelChange Bytes) (d : Bytes) :
    change.tally d = (change.added.count d, change.removed.count d) := by
  rw [ChannelChange.tally, lawful_beq_subsingleton instBEqOfDecidableEq (List.instBEq (α := UInt8))]

variable {chainMergeable branchMergeable : NumberChannelsDiff} {data data' : AList fun _ : Bytes => List Bytes}

variable {entry : Sigma fun _ : Bytes => ChannelChange Bytes}

theorem leftAt_removeDatums (hInit : base.getDataProjBinary k = .ok init) (hNumber : k ∉ chainMergeable)
    (h : (removeDatums base chainMergeable branchMergeable data entry).run = .ok (some data')) (d : Bytes) :
    (leftAt init data' k).count d + (if entry.1 = k then entry.2.removed.count d else 0) =
      (leftAt init data k).count d := by
  rw [removeDatums] at h
  have hSame : data' = data → entry.1 ≠ k ∨ entry.2.removed = [] → (leftAt init data' k).count d +
      (if entry.1 = k then entry.2.removed.count d else 0) = (leftAt init data k).count d := by
    rintro rfl (hNe | hNone)
    · rw [if_neg hNe, Nat.add_zero]
    · rw [hNone, List.count_nil, ite_self, Nat.add_zero]
  split_ifs at h with hChain hBranch
  · refine hSame (Option.some.inj (Except.ok.inj h)).symm (.inl ?_)
    rintro rfl
    exact hNumber hChain
  · cases h
  · rw [removeAvailable] at h
    split_ifs at h with hEmpty
    · exact hSame (Option.some.inj (Except.ok.inj h)).symm (.inr (List.isEmpty_iff.mp hEmpty))
    · obtain ⟨items, hItems, hRest⟩ := exists_of_bind_applicable h
      cases hRemoved : removeFromAvailable items entry.2.removed with
      | none =>
        rw [hRemoved] at hRest
        cases hRest
      | some left =>
        rw [hRemoved] at hRest
        obtain rfl := Option.some.inj (Except.ok.inj hRest)
        obtain rfl | hNe := eq_or_ne k entry.1
        · rw [if_pos rfl, leftAt, AList.lookup_insert, Option.getD_some, count_removeFromAvailable hRemoved,
            eq_leftAt_of_readAvailable hInit hItems]
        · rw [if_neg hNe.symm, leftAt, AList.lookup_insert_ne hNe, Nat.add_zero]
          rfl

theorem leftAt_addDatums (hInit : base.getDataProjBinary k = .ok init) (hNumber : k ∉ chainMergeable)
    (h : (addDatums codec base chainMergeable data entry).run = .ok (some data')) (d : Bytes) :
    (leftAt init data' k).count d = (leftAt init data k).count d +
      if entry.1 = k then entry.2.added.count d else 0 := by
  rw [addDatums] at h
  have hSame : data' = data → entry.1 ≠ k ∨ entry.2.added = [] → (leftAt init data' k).count d =
      (leftAt init data k).count d + if entry.1 = k then entry.2.added.count d else 0 := by
    rintro rfl (hNe | hNone)
    · rw [if_neg hNe, Nat.add_zero]
    · rw [hNone, List.count_nil, ite_self, Nat.add_zero]
  split_ifs at h with hChain hEmpty
  · refine hSame (Option.some.inj (Except.ok.inj h)).symm (.inl ?_)
    rintro rfl
    exact hNumber hChain
  · exact hSame (Option.some.inj (Except.ok.inj h)).symm (.inr (List.isEmpty_iff.mp hEmpty))
  · obtain ⟨current, hCurrent, hRest⟩ := exists_of_bind_applicable h
    obtain ⟨atBase, -, hRest⟩ := exists_of_bind_applicable hRest
    split_ifs at hRest
    · cases hRest
    · obtain rfl := Option.some.inj (Except.ok.inj hRest)
      obtain rfl | hNe := eq_or_ne k entry.1
      · rw [if_pos rfl, leftAt, AList.lookup_insert, Option.getD_some, List.count_append,
          eq_leftAt_of_readAvailable hInit hCurrent]
      · rw [if_neg hNe.symm, leftAt, AList.lookup_insert_ne hNe, Nat.add_zero]
        rfl

variable {depends : DeployChainIndex → DeployChainIndex → Bool}
  {mergeableChannels : DeployChainIndex → NumberChannelsDiff} {stateChanges : DeployChainIndex → StateChange}

variable (stateChanges) in
def chainTally (k d : Bytes) (chain : DeployChainIndex) : Nat × Nat :=
  (((stateChanges chain).datumsChanges.lookup k).map (·.tally d)).getD (0, 0)

theorem leftAt_applyChain (hInit : base.getDataProjBinary k = .ok init) {chain : DeployChainIndex}
    (hNumber : k ∉ mergeableChannels chain) {available available' : Available}
    (h : (applyChain codec base mergeableChannels stateChanges branchMergeable available chain).run =
      .ok (some available')) (d : Bytes) :
    (leftAt init available'.data k).count d + (chainTally stateChanges k d chain).2 =
      (leftAt init available.data k).count d + (chainTally stateChanges k d chain).1 := by
  obtain ⟨removed, hRemoved, hRest⟩ := exists_of_bind_applicable h
  obtain ⟨_, -, hRest⟩ := exists_of_bind_applicable hRest
  obtain ⟨added, hAdded, hRest⟩ := exists_of_bind_applicable hRest
  obtain ⟨_, -, hRest⟩ := exists_of_bind_applicable hRest
  obtain rfl := Option.some.inj (Except.ok.inj hRest)
  have hRemovedSum := @foldlM_applicable_measure (Sigma fun _ : Bytes => ChannelChange Bytes) _ _
    (fun data => ((leftAt init data k).count d : Int))
    (fun entry => if entry.1 = k then -(entry.2.removed.count d : Int) else 0) (by
      intro data entry data' hStep
      have hCount := leftAt_removeDatums hInit hNumber hStep d
      split_ifs at hCount ⊢ <;> omega) _ _ _ hRemoved
  have hAddedSum := @foldlM_applicable_measure (Sigma fun _ : Bytes => ChannelChange Bytes) _ _
    (fun data => ((leftAt init data k).count d : Int))
    (fun entry => if entry.1 = k then (entry.2.added.count d : Int) else 0) (by
      intro data entry data' hStep
      have hCount := leftAt_addDatums hInit hNumber hStep d
      split_ifs at hCount ⊢ <;> omega) _ _ _ hAdded
  rw [sum_map_ite_key _ k fun change : ChannelChange Bytes => -(change.removed.count d : Int)] at hRemovedSum
  rw [sum_map_ite_key _ k fun change : ChannelChange Bytes => (change.added.count d : Int)] at hAddedSum
  rw [chainTally]
  cases hLookup : (stateChanges chain).datumsChanges.lookup k with
  | none =>
    rw [hLookup, Option.map_none, Option.getD_none] at hRemovedSum hAddedSum
    rw [Option.map_none, Option.getD_none]
    dsimp only
    omega
  | some change =>
    rw [hLookup, Option.map_some, Option.getD_some] at hRemovedSum hAddedSum
    rw [Option.map_some, Option.getD_some, tally_eq_count]
    dsimp only at hRemovedSum hAddedSum ⊢
    omega

variable (base mergeableChannels stateChanges) in
/-- On channels that the accepted chains do not merge as numbers, what is left and what they removed is
what the base held and what they added. -/
def Accounts (split : BranchSplit) : Prop :=
  ∀ k init, base.getDataProjBinary k = .ok init → (∀ c ∈ split.accepted, k ∉ mergeableChannels c) → ∀ d,
    (leftAt init split.available.data k).count d + ∑ c ∈ split.accepted, (chainTally stateChanges k d c).2 =
      init.count d + ∑ c ∈ split.accepted, (chainTally stateChanges k d c).1

theorem splitChain_accounts {split split' : BranchSplit} {chain : DeployChainIndex}
    (h : splitChain codec base depends mergeableChannels stateChanges branchMergeable split chain = .ok split')
    (hFresh : chain ∉ split.accepted) (hAccounts : Accounts base mergeableChannels stateChanges split) :
    Accounts base mergeableChannels stateChanges split' ∧ split'.accepted ⊆ insert chain split.accepted := by
  rw [splitChain] at h
  split_ifs at h
  · obtain rfl := Except.ok.inj h
    exact ⟨hAccounts, Finset.subset_insert _ _⟩
  · obtain ⟨applied, hApplied, hRest⟩ := exists_of_bind_ok h
    cases applied with
    | none =>
      obtain rfl := Except.ok.inj hRest
      exact ⟨hAccounts, Finset.subset_insert _ _⟩
    | some available =>
      obtain rfl := Except.ok.inj hRest
      refine ⟨fun k init hInit hNumbers d => ?_, Finset.Subset.refl _⟩
      have hBefore := hAccounts k init hInit (fun c hc => hNumbers c (Finset.mem_insert_of_mem hc)) d
      have hChain := leftAt_applyChain hInit (hNumbers chain (Finset.mem_insert_self _ _)) hApplied d
      dsimp only at hChain ⊢
      rw [Finset.sum_insert hFresh, Finset.sum_insert hFresh]
      omega

theorem foldlM_splitChain_accounts {chains : List DeployChainIndex} (hNodup : chains.Nodup) {split split' : BranchSplit}
    (h : chains.foldlM (splitChain codec base depends mergeableChannels stateChanges branchMergeable) split = .ok split')
    (hFresh : ∀ c ∈ chains, c ∉ split.accepted) (hAccounts : Accounts base mergeableChannels stateChanges split) :
    Accounts base mergeableChannels stateChanges split' := by
  induction chains generalizing split with
  | nil =>
    obtain rfl := Except.ok.inj h
    exact hAccounts
  | cons chain chains ih =>
    obtain ⟨hOut, hRest⟩ := List.nodup_cons.mp hNodup
    obtain ⟨hHead, hTail⟩ := List.forall_mem_cons.mp hFresh
    rw [List.foldlM_cons] at h
    obtain ⟨next, hNext, hFold⟩ := exists_of_bind_ok h
    obtain ⟨hNextAccounts, hSub⟩ := splitChain_accounts hNext hHead hAccounts
    refine ih hRest hFold (fun c hc hMem => ?_) hNextAccounts
    obtain rfl | hMem := Finset.mem_insert.mp (hSub hMem)
    · exact hOut hc
    · exact hTail c hc hMem

theorem splitUnavailableBranchConsumes_accounts {branch : Branch DeployChainIndex} {split : BranchSplit}
    (h : splitUnavailableBranchConsumes codec base depends mergeableChannels stateChanges branch = .ok split) :
    Accounts base mergeableChannels stateChanges split := by
  obtain ⟨branchMergeable, -, hFold⟩ := exists_of_bind_ok h
  have hNodup : (dependencyOrderedBranchItems depends branch).Nodup :=
    (takeOrdered_perm (Finset.length_sort _)).nodup_iff.mpr (Finset.sort_nodup _ _)
  refine foldlM_splitChain_accounts hNodup hFold (fun c _ => Finset.notMem_empty c) ?_
  intro k init _ _ d
  rw [Finset.sum_empty, Finset.sum_empty]
  rfl

end counts

section combined

variable {base : BaseHistory HotStoreBinaryAction} {mergeableChannels : DeployChainIndex → NumberChannelsDiff}
  {stateChanges : DeployChainIndex → StateChange} {k d : Bytes}

def foldStateChanges (stateChanges : DeployChainIndex → StateChange) (chains : List DeployChainIndex) : StateChange :=
  chains.foldl (fun combined chain => combined.combine (stateChanges chain)) .empty

theorem lookup_foldStateChanges (chains : List DeployChainIndex) (k : Bytes) :
    (foldStateChanges stateChanges chains).datumsChanges.lookup k =
      foldChanges (chains.filterMap fun chain => (stateChanges chain).datumsChanges.lookup k) := by
  have hAll : foldStateChanges stateChanges chains = combineAll (chains.map fun chain => ((), stateChanges chain)) := by
    rw [combineAll, List.foldl_map]
    rfl
  rw [hAll, lookup_combineAll, touching, List.filterMap_map, List.map_filterMap]
  congr 1
  refine List.filterMap_congr fun chain _ => ?_
  change (Option.map _ (((stateChanges chain).datumsChanges.lookup k).map _)) = _
  rw [Option.map_map]
  exact Option.map_id'

def ChainsNetted (stateChanges : DeployChainIndex → StateChange) (chains : Finset DeployChainIndex) : Prop :=
  ∀ chain ∈ chains, ∀ k change, (stateChanges chain).datumsChanges.lookup k = some change → change.Netted

variable {chains : Finset DeployChainIndex}

theorem oneSided_chainTally (h : ChainsNetted stateChanges chains)
    {chain : DeployChainIndex} (hChain : chain ∈ chains) : OneSided (chainTally stateChanges k d chain) := by
  rw [chainTally]
  cases hLookup : (stateChanges chain).datumsChanges.lookup k with
  | none => exact .inl rfl
  | some change => exact (h chain hChain k change hLookup).tally d

variable {order : List DeployChainIndex}

section

variable (h : ChainsNetted stateChanges chains) (hOrder : ∀ chain ∈ order, chain ∈ chains)

include h hOrder

theorem foldl_net_filterMap :
    ((order.filterMap fun chain => (stateChanges chain).datumsChanges.lookup k).map (·.tally d)).foldl net (0, 0) =
      (order.map (chainTally stateChanges k d)).foldl net (0, 0) := by
  induction order using List.reverseRecOn with
  | nil => rfl
  | append_singleton order chain ih =>
    have hBefore : ∀ c ∈ order, c ∈ chains := fun c hc => hOrder c (List.mem_append_left _ hc)
    have hSided : ∀ x ∈ order.map (chainTally stateChanges k d), OneSided x := by
      intro x hx
      obtain ⟨c, hc, rfl⟩ := List.mem_map.mp hx
      exact oneSided_chainTally h (hBefore c hc)
    have hState := (foldl_net_bounds hSided).1
    rw [List.filterMap_append, List.map_append, List.foldl_append, ih hBefore, List.map_append, List.foldl_append,
      List.map_singleton, List.filterMap_cons, chainTally]
    generalize (order.map (chainTally stateChanges k d)).foldl net (0, 0) = state at hState
    cases (stateChanges chain).datumsChanges.lookup k with
    | none =>
      obtain ⟨a, r⟩ := state
      unfold OneSided at hState
      simp only [List.filterMap_nil, List.map_nil, List.foldl_nil, List.foldl_cons, Option.map_none, Option.getD_none, net,
        Prod.mk.injEq] at hState ⊢
      omega
    | some change => rfl

theorem count_removed_of_lookup {change : ChannelChange Bytes}
    (hLookup : (foldStateChanges stateChanges order).datumsChanges.lookup k = some change) :
    (change.tally d).2 = ((order.map (chainTally stateChanges k d)).foldl net (0, 0)).2 := by
  rw [← foldl_net_filterMap h hOrder]
  rw [lookup_foldStateChanges] at hLookup
  cases hChanges : order.filterMap fun chain => (stateChanges chain).datumsChanges.lookup k with
  | nil =>
    rw [hChanges] at hLookup
    cases hLookup
  | cons c cs =>
    rw [hChanges] at hLookup
    obtain rfl := Option.some.inj hLookup
    have hMem : c ∈ order.filterMap fun chain => (stateChanges chain).datumsChanges.lookup k := by
      rw [hChanges]
      exact List.mem_cons_self
    obtain ⟨chain, hChain, hc⟩ := List.mem_filterMap.mp hMem
    have hSided : OneSided (c.tally d) := (h chain (hOrder chain hChain) k c hc).tally d
    rw [ChannelChange.tally_foldl_combine, List.map_cons, List.foldl_cons, net_zero hSided]

theorem foldl_net_of_lookup_none (hLookup : (foldStateChanges stateChanges order).datumsChanges.lookup k = none) :
    (order.map (chainTally stateChanges k d)).foldl net (0, 0) = (0, 0) := by
  rw [← foldl_net_filterMap h hOrder]
  rw [lookup_foldStateChanges] at hLookup
  cases hChanges : order.filterMap fun chain => (stateChanges chain).datumsChanges.lookup k with
  | nil => rfl
  | cons c cs =>
    rw [hChanges] at hLookup
    cases hLookup

end

variable (base mergeableChannels stateChanges) in
/-- In every order of the chains, on every channel that none of them merges as a number: no removed
item is absent from the base. -/
def RemovalsPresent (chains : Finset DeployChainIndex) : Prop :=
  ∀ order : List DeployChainIndex, (order : Multiset DeployChainIndex) = chains.val →
    ∀ k, (∀ c ∈ chains, k ∉ mergeableChannels c) → ∀ init, base.getDataProjBinary k = .ok init →
      ∀ change, (foldStateChanges stateChanges order).datumsChanges.lookup k = some change →
        (ChannelChange.cancelCommon init change.removed).2 = []

variable (base mergeableChannels stateChanges) in
/-- A datum that several chains add to such a channel: the base and the highest addition cover all the
removals, or the base covers each of them. -/
def DuplicatesCovered (chains : Finset DeployChainIndex) : Prop :=
  ∀ k, (∀ c ∈ chains, k ∉ mergeableChannels c) → ∀ init, base.getDataProjBinary k = .ok init → ∀ d,
    (∃ c ∈ chains, ∃ c' ∈ chains, c ≠ c' ∧ 0 < (chainTally stateChanges k d c).1 ∧
      0 < (chainTally stateChanges k d c').1) →
    ∑ c ∈ chains, (chainTally stateChanges k d c).2 ≤
        init.count d + chains.sup (fun c => (chainTally stateChanges k d c).1) ∨
      ∀ c ∈ chains, (chainTally stateChanges k d c).2 ≤ init.count d

theorem removalsPresent_iff (h : ChainsNetted stateChanges chains) :
    RemovalsPresent base mergeableChannels stateChanges chains ↔
      ∀ k, (∀ c ∈ chains, k ∉ mergeableChannels c) → ∀ init, base.getDataProjBinary k = .ok init → ∀ d,
        ∑ c ∈ chains, (chainTally stateChanges k d c).2 ≤
            init.count d + chains.sup (fun c => (chainTally stateChanges k d c).1) ∨
          ∀ c ∈ chains, (chainTally stateChanges k d c).2 ≤ init.count d := by
  have hMem : ∀ {order : List DeployChainIndex}, (order : Multiset DeployChainIndex) = chains.val →
      ∀ c ∈ order, c ∈ chains := fun hOrder c hc => by rwa [← Finset.mem_val, ← hOrder]
  -- one channel and one datum, in every order
  have hOrders : ∀ k d bound,
      (∀ order : List DeployChainIndex, (order : Multiset DeployChainIndex) = chains.val →
        ((order.map (chainTally stateChanges k d)).foldl net (0, 0)).2 ≤ bound) ↔
      (∑ c ∈ chains, (chainTally stateChanges k d c).2 ≤
          bound + chains.sup (fun c => (chainTally stateChanges k d c).1) ∨
        ∀ c ∈ chains, (chainTally stateChanges k d c).2 ≤ bound) := by
    intro k d bound
    have hSort : ((chains.sort (· ≤ ·) : List DeployChainIndex) : Multiset DeployChainIndex) = chains.val :=
      Finset.sort_eq chains _
    have hSided : ∀ c ∈ chains.sort (· ≤ ·), OneSided (chainTally stateChanges k d c) := fun c hc =>
      oneSided_chainTally h (hMem hSort c hc)
    have hSum : ((chains.sort (· ≤ ·)).map fun c => (chainTally stateChanges k d c).2).sum =
        ∑ c ∈ chains, (chainTally stateChanges k d c).2 := by
      rw [Finset.sum, ← hSort, Multiset.map_coe, Multiset.sum_coe]
    have hSup : most (fun c => (chainTally stateChanges k d c).1) (chains.sort (· ≤ ·)) =
        chains.sup fun c => (chainTally stateChanges k d c).1 := by
      refine le_antisymm (most_le_iff.mpr fun c hc => ?_) (Finset.sup_le fun c hc => ?_)
      · exact Finset.le_sup (f := fun c => (chainTally stateChanges k d c).1) (hMem hSort c hc)
      · exact le_most (f := fun c => (chainTally stateChanges k d c).1) ((Finset.mem_sort _).mpr hc)
    have hIff := foldl_net_le_iff hSided bound
    rw [hSum, hSup, most_le_iff] at hIff
    simp only [Finset.mem_sort] at hIff
    rw [← hIff]
    refine forall_congr' fun order => ?_
    rw [← hSort, Multiset.coe_eq_coe]
  constructor
  · intro hPresent k hNumber init hInit d
    refine (hOrders k d _).mp fun order hOrder => ?_
    cases hLookup : (foldStateChanges stateChanges order).datumsChanges.lookup k with
    | none =>
      rw [foldl_net_of_lookup_none h (hMem hOrder) hLookup]
      exact Nat.zero_le _
    | some change =>
      have hNil := hPresent order hOrder k hNumber init hInit change hLookup
      rw [← count_removed_of_lookup h (hMem hOrder) hLookup, tally_eq_count]
      exact (ChannelChange.unmatched_eq_nil_iff.mp hNil).count_le d
  · intro hCovered order hOrder k hNumber init hInit change hLookup
    refine ChannelChange.unmatched_eq_nil_iff.mpr (List.subperm_ext_iff.mpr fun d _ => ?_)
    have hBound := (hOrders k d _).mpr (hCovered k hNumber init hInit d) order hOrder
    rw [← count_removed_of_lookup h (hMem hOrder) hLookup, tally_eq_count] at hBound
    exact hBound

end combined

section kept

variable {codec : DatumCodec} {base : BaseHistory HotStoreBinaryAction}
  {depends : DeployChainIndex → DeployChainIndex → Bool} {mergeableChannels : DeployChainIndex → NumberChannelsDiff}
  {stateChanges : DeployChainIndex → StateChange} {branch : Branch DeployChainIndex} {split : BranchSplit}

end kept

def copyChain (cost : Nat) : DeployChainIndex := ⟨{⟨[10], cost⟩}, [], [2], 1, 0⟩

def copyChanges (chain : DeployChainIndex) : StateChange :=
  { StateChange.empty with
    datumsChanges := AList.singleton [7] (if 2 < chain.totalCost then ⟨[[9]], []⟩ else ⟨[], [[9]]⟩) }

def copyCodec : DatumCodec := ⟨paddingDigest, fun _ => false, id, List.flatten, fun _ _ _ rnd => rnd⟩

def copyBase : BaseHistory HotStoreBinaryAction :=
  ⟨fun _ => .ok [], fun _ => .ok [], fun _ => .ok [], fun _ => .ok [], fun _ => .ok []⟩

def copyBranch : Branch DeployChainIndex := ⟨{copyChain 4, copyChain 3, copyChain 2, copyChain 1}⟩

theorem sort_copyBranch :
    copyBranch.items.sort (· ≤ ·) = [copyChain 4, copyChain 3, copyChain 2, copyChain 1] :=
  (List.toFinset_sort (· ≤ ·) (l := [copyChain 4, copyChain 3, copyChain 2, copyChain 1]) (by decide)).mpr (by decide)

theorem split_copyBranch : ∃ split, splitUnavailableBranchConsumes copyCodec copyBase (fun _ _ => false) (fun _ => ∅)
    copyChanges copyBranch = .ok split ∧ split.accepted = copyBranch.items := by
  have hOrder : dependencyOrderedBranchItems (fun _ _ => false) copyBranch =
      [copyChain 4, copyChain 3, copyChain 2, copyChain 1] := by
    rw [dependencyOrderedBranchItems, sort_copyBranch]
    decide
  rw [splitUnavailableBranchConsumes, hOrder]
  refine ⟨_, rfl, ?_⟩
  decide

theorem chainsNetted_copies (chains : Finset DeployChainIndex) : ChainsNetted copyChanges chains := by
  intro chain _ k change hLookup d hAdded hRemoved
  obtain rfl | hNe := eq_or_ne k [7]
  · have hChange : (copyChanges chain).datumsChanges.lookup [7] =
        some (if 2 < chain.totalCost then ⟨[[9]], []⟩ else ⟨[], [[9]]⟩) := rfl
    obtain rfl := Option.some.inj (hChange.symm.trans hLookup)
    split_ifs at hAdded hRemoved
    · cases hRemoved
    · cases hAdded
  · have hNone : (copyChanges chain).datumsChanges.lookup k = none := AList.lookup_eq_none.mpr fun hk => hNe (by
      simpa [copyChanges, AList.mem_keys] using hk)
    rw [hNone] at hLookup
    cases hLookup

end F1r3Node.Merging
