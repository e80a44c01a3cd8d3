import F1r3Node.Merging.BlockChanges
import F1r3Node.Merging.OrderGuard

/-! # What the trie actions of a merge write

A leaf of data or continuations then holds what the base held, without the removed items and with the added ones.
-/

namespace F1r3Node.Merging

open Shared Lib

inductive TrieSlot where
  | data
  | continuations
  | joins
  deriving DecidableEq

abbrev TrieState := TrieSlot × Bytes → List Bytes

def HotStoreBinaryAction.write : HotStoreBinaryAction → (TrieSlot × Bytes) × List Bytes
  | .insertProduce hash data => ((.data, hash), data)
  | .insertConsume hash continuations => ((.continuations, hash), continuations)
  | .insertJoins hash joins => ((.joins, hash), joins)
  | .deleteProduce hash => ((.data, hash), [])
  | .deleteConsume hash => ((.continuations, hash), [])
  | .deleteJoins hash => ((.joins, hash), [])

def applyActions (state : TrieState) (actions : List HotStoreBinaryAction) : TrieState :=
  applyWrites state (actions.map HotStoreBinaryAction.write)

structure Reads (base : BaseHistory HotStoreBinaryAction) (state : TrieState) : Prop where
  data : ∀ hash, base.getDataProjBinary hash = .ok (state (.data, hash))
  continuations : ∀ hash, base.getContinuationsProjBinary hash = .ok (state (.continuations, hash))
  joins : ∀ hash, base.getJoinsProjBinary hash = .ok (state (.joins, hash))

namespace ChannelChange

variable {A : Type} [DecidableEq A]

theorem coe_cancelCommon_fst (init removed : List A) :
    ((cancelCommon init removed).1 : Multiset A) = (init : Multiset A) - removed := by
  ext d
  rw [Multiset.count_sub, Multiset.coe_count, Multiset.coe_count, Multiset.coe_count]
  exact (count_cancelCommon d init removed).1

theorem unmatched_eq_nil_iff {init removed : List A} :
    (cancelCommon init removed).2 = [] ↔ removed.Subperm init := by
  rw [List.subperm_ext_iff, List.eq_nil_iff_forall_not_mem]
  constructor
  · intro h d _
    have hCount := (count_cancelCommon d init removed).2
    rw [List.count_eq_zero.mpr (h d)] at hCount
    omega
  · intro h d hd
    have hCount := (count_cancelCommon d init removed).2
    have hPos := List.count_pos_iff.mpr hd
    have hMem : d ∈ removed := List.count_pos_iff.mp (by omega)
    have hLe := h d hMem
    omega

theorem perm_of_unmatched_eq_nil {init removed : List A} (h : (cancelCommon init removed).2 = []) :
    ((cancelCommon init removed).1 ++ removed).Perm init := by
  rw [← Multiset.coe_eq_coe, ← Multiset.coe_add, coe_cancelCommon_fst]
  exact tsub_add_cancel_of_le (Multiset.coe_le.mpr (unmatched_eq_nil_iff.mp h))

end ChannelChange

def changed (init : List Bytes) (change : ChannelChange Bytes) : List Bytes :=
  multisetDiff init change.removed ++ change.added

theorem coe_changed (init : List Bytes) (change : ChannelChange Bytes) :
    (changed init change : Multiset Bytes) = (init : Multiset Bytes) - change.removed + change.added := by
  rw [changed, ← Multiset.coe_add, multisetDiff, ChannelChange.coe_cancelCommon_fst]

theorem countP_changed {init : List Bytes} {change : ChannelChange Bytes} (h : change.removed.Subperm init)
    (p : Bytes → Bool) :
    (changed init change).countP p + change.removed.countP p = init.countP p + change.added.countP p := by
  have hPerm := (ChannelChange.perm_of_unmatched_eq_nil (ChannelChange.unmatched_eq_nil_iff.mpr h)).countP_eq p
  rw [List.countP_append] at hPerm
  rw [changed, List.countP_append, ← hPerm, multisetDiff]
  omega

@[simp] theorem changed_nil (init : List Bytes) : changed init ⟨[], []⟩ = init := by
  rw [changed, multisetDiff, List.append_nil]
  induction init with
  | nil => rfl
  | cons d init ih =>
    rw [ChannelChange.cancelCommon, if_neg List.not_mem_nil]
    exact congrArg (d :: ·) ih

section makeTrieAction

variable {historyPointer : Bytes} {kind : String} {initValue : Bytes → Except HistoryError (List Bytes)}
  {changes : ChannelChange Bytes} {removeAction : Bytes → HotStoreBinaryAction}
  {updateAction : Bytes → List Bytes → HotStoreBinaryAction} {init : List Bytes} {slot : TrieSlot}

theorem makeTrieAction_eq_ok (hInit : initValue historyPointer = .ok init)
    (hRemove : (removeAction historyPointer).write = ((slot, historyPointer), []))
    (hUpdate : ∀ items, (updateAction historyPointer items).write = ((slot, historyPointer), items))
    {action : HotStoreBinaryAction}
    (h : makeTrieAction historyPointer kind initValue changes removeAction updateAction = .ok action) :
    changes.removed.Subperm init ∧ action.write = ((slot, historyPointer), changed init changes) := by
  rw [makeTrieAction, hInit] at h
  obtain ⟨init', hEq, h⟩ := exists_of_bind_ok h
  obtain rfl := Except.ok.inj hEq
  rw [← ChannelChange.unmatched_eq_nil_iff]
  dsimp only at h
  have hMatched : ¬ (ChannelChange.cancelCommon init changes.removed).2.length > 0 := by
    intro hPos
    rw [if_pos hPos] at h
    cases h
  rw [if_neg hMatched] at h
  refine ⟨List.eq_nil_of_length_eq_zero (by omega), ?_⟩
  split_ifs at h with hEmpty hNe
  · obtain rfl := Except.ok.inj h
    rw [Bool.and_eq_true, List.isEmpty_iff] at hEmpty
    rw [hRemove, changed, multisetDiff, hEmpty.1]
  · obtain rfl := Except.ok.inj h
    exact hUpdate _

theorem makeTrieAction_isOk (hInit : initValue historyPointer = .ok init) (hFits : changes.removed.Subperm init)
    (hNe : init ≠ changed init changes) :
    ∃ action, makeTrieAction historyPointer kind initValue changes removeAction updateAction = .ok action := by
  have hMatched : ¬ (ChannelChange.cancelCommon init changes.removed).2.length > 0 := by
    rw [ChannelChange.unmatched_eq_nil_iff.mpr hFits]
    exact Nat.lt_irrefl 0
  rw [makeTrieAction, hInit]
  dsimp only [bind, Except.bind]
  rw [if_neg hMatched]
  split_ifs with hEmpty hEq
  · exact ⟨_, rfl⟩
  · exact ⟨_, rfl⟩
  · exact absurd hNe hEq

end makeTrieAction

section entries

variable {codec : DatumCodec} {base : BaseHistory HotStoreBinaryAction} {state : TrieState}

theorem consumeAndJoinActions_eq_ok (hReads : Reads base state) {consumeChannels : List Bytes}
    {change : ChannelChange Bytes} {result : Option ConsumeAndJoinActions}
    (h : consumeAndJoinActions codec base ⟨consumeChannels, change⟩ = .ok result) :
    let leaf := (TrieSlot.continuations, hashFromHashes codec.blake consumeChannels)
    (change = ⟨[], []⟩ ∧ result = none) ∨
      ∃ actions, result = some actions ∧ actions.consumeAction.write = (leaf, changed (state leaf) change) ∧
        state leaf ≠ changed (state leaf) change ∧
        actions.joinAction = if state leaf = [] then some (.addJoin consumeChannels)
          else if changed (state leaf) change = [] then some (.removeJoin consumeChannels) else none := by
  rw [consumeAndJoinActions] at h
  dsimp only at h
  split_ifs at h with hNetted
  · rw [Bool.and_eq_true, List.isEmpty_iff, List.isEmpty_iff] at hNetted
    obtain rfl := Except.ok.inj h
    exact Or.inl ⟨congrArg₂ ChannelChange.mk hNetted.1 hNetted.2, rfl⟩
  · rw [hReads.continuations] at h
    obtain ⟨init, hInit, h⟩ := exists_of_bind_ok h
    obtain rfl := Except.ok.inj hInit
    right
    split_ifs at h with hSame hEmpty hGone
    · obtain rfl := Except.ok.inj h
      exact ⟨_, rfl, rfl, hSame, by rw [if_pos (List.isEmpty_iff.mp hEmpty)]⟩
    · obtain rfl := Except.ok.inj h
      rw [List.isEmpty_iff] at hEmpty hGone
      refine ⟨_, rfl, ?_, hSame, by rw [if_neg hEmpty]; exact (if_pos hGone).symm⟩
      rw [changed, hGone]
      rfl
    · obtain rfl := Except.ok.inj h
      rw [List.isEmpty_iff] at hEmpty hGone
      exact ⟨_, rfl, rfl, hSame, by rw [if_neg hEmpty]; exact (if_neg hGone).symm⟩

variable {multiWriterChannels : Finset Bytes} {mergeableChs : NumberChannelsDiff} {channel : Bytes}
  {change : ChannelChange Bytes} {result : Option HotStoreBinaryAction}

theorem produceTrieAction_of_number (hNumber : channel ∈ mergeableChs)
    (h : produceTrieAction base (fun channel change =>
      handleChannelChange codec base multiWriterChannels channel change mergeableChs) ⟨channel, change⟩ = .ok result) :
    ∃ value, result = some (.insertProduce channel [value]) := by
  obtain ⟨⟨diff, mergeType⟩, hLookup⟩ := Option.isSome_iff_exists.mp (AList.lookup_isSome.mpr hNumber)
  obtain ⟨handled, hHandled, h⟩ := exists_of_bind_ok h
  dsimp only at hHandled
  rw [handleChannelChange, hLookup] at hHandled
  dsimp only at hHandled
  cases hMerged : calculateNumberChannelMerge codec base channel diff mergeType change with
  | error e =>
    rw [hMerged] at hHandled
    cases hHandled
  | ok action =>
    rw [hMerged] at hHandled
    obtain rfl := Except.ok.inj hHandled
    obtain rfl := Except.ok.inj h
    obtain ⟨initNum, -, hMerged⟩ := exists_of_bind_ok hMerged
    dsimp only at hMerged
    cases hApplied : applyMergeableValue (initNum.getD 0) diff mergeType with
    | none =>
      rw [hApplied] at hMerged
      cases hMerged
    | some newVal =>
      rw [hApplied] at hMerged
      obtain ⟨datumEncoded, -, hMerged⟩ := exists_of_bind_ok hMerged
      obtain rfl := Except.ok.inj hMerged
      exact ⟨datumEncoded, rfl⟩

theorem produceTrieAction_of_not_number (hReads : Reads base state) (hNumber : channel ∉ mergeableChs)
    (h : produceTrieAction base (fun channel change =>
      handleChannelChange codec base multiWriterChannels channel change mergeableChs) ⟨channel, change⟩ = .ok result) :
    (change = ⟨[], []⟩ ∧ result = none) ∨
      ∃ action, result = some action ∧ action.write = ((.data, channel), changed (state (.data, channel)) change) := by
  obtain ⟨handled, hHandled, h⟩ := exists_of_bind_ok h
  have hNone : handled = none := by
    dsimp only at hHandled
    rw [handleChannelChange, AList.lookup_eq_none.mpr hNumber] at hHandled
    dsimp only at hHandled
    split_ifs at hHandled
    · obtain ⟨baseData, -, hHandled⟩ := exists_of_bind_ok hHandled
      split_ifs at hHandled
      · obtain ⟨baseBinary, -, hHandled⟩ := exists_of_bind_ok hHandled
        obtain ⟨_, -, hHandled⟩ := exists_of_bind_ok hHandled
        exact (Except.ok.inj hHandled).symm
      · exact (Except.ok.inj hHandled).symm
    · exact (Except.ok.inj hHandled).symm
  subst hNone
  dsimp only at h
  split_ifs at h with hNetted
  · rw [Bool.and_eq_true, List.isEmpty_iff, List.isEmpty_iff] at hNetted
    obtain rfl := Except.ok.inj h
    exact Or.inl ⟨congrArg₂ ChannelChange.mk hNetted.1 hNetted.2, rfl⟩
  · obtain ⟨action, hAction, h⟩ := exists_of_bind_ok h
    obtain rfl := Except.ok.inj h
    exact Or.inr ⟨action, rfl, (makeTrieAction_eq_ok (hReads.data channel) rfl (fun _ => rfl)
      (eq_ok_of_mapError hAction)).2⟩

theorem leaf_of_produceTrieAction (hReads : Reads base state) {action : HotStoreBinaryAction}
    (h : produceTrieAction base (fun channel change =>
      handleChannelChange codec base multiWriterChannels channel change mergeableChs) ⟨channel, change⟩ =
        .ok (some action)) : action.write.1 = (.data, channel) := by
  by_cases hNumber : channel ∈ mergeableChs
  · obtain ⟨value, hEq⟩ := produceTrieAction_of_number hNumber h
    rw [Option.some.inj hEq]
    rfl
  · rcases produceTrieAction_of_not_number hReads hNumber h with ⟨-, hNone⟩ | ⟨action', hEq, hWrite⟩
    · cases hNone
    · rw [Option.some.inj hEq, hWrite]

end entries

section collectJoin

variable {joinsMap : AList fun _ : List Bytes => Bytes}

def ConsumeAndJoinActions.joinChannels (actions : ConsumeAndJoinActions) : List Bytes :=
  match actions.joinAction with
  | some (.addJoin channels) => channels
  | some (.removeJoin channels) => channels
  | none => []

def ConsumeAndJoinActions.addedOn (joinsMap : AList fun _ : List Bytes => Bytes) (channel : Bytes)
    (actions : ConsumeAndJoinActions) : List Bytes :=
  match actions.joinAction with
  | some (.addJoin channels) => List.replicate (channels.count channel) ((joinsMap.lookup channels).getD [])
  | _ => []

def ConsumeAndJoinActions.removedOn (joinsMap : AList fun _ : List Bytes => Bytes) (channel : Bytes)
    (actions : ConsumeAndJoinActions) : List Bytes :=
  match actions.joinAction with
  | some (.removeJoin channels) => List.replicate (channels.count channel) ((joinsMap.lookup channels).getD [])
  | _ => []

def joinChangeOf (joins : AList fun _ : Bytes => ChannelChange Bytes) (channel : Bytes) : ChannelChange Bytes :=
  (joins.lookup channel).getD ⟨[], []⟩

theorem joinChangeOf_foldl_addJoinChange (joinData : Bytes) (add : Bool) (channels : List Bytes)
    (joins : AList fun _ : Bytes => ChannelChange Bytes) (c : Bytes) :
    joinChangeOf (channels.foldl (addJoinChange joinData add) joins) c =
      let records := List.replicate (channels.count c) joinData
      ⟨(joinChangeOf joins c).added ++ (if add then records else []),
        (joinChangeOf joins c).removed ++ (if add then [] else records)⟩ := by
  induction channels generalizing joins with
  | nil => simp
  | cons channel channels ih =>
    rw [List.foldl_cons, ih]
    obtain rfl | hNe := eq_or_ne channel c
    · have hLookup : joinChangeOf (addJoinChange joinData add joins channel) channel =
          if add then ⟨(joinChangeOf joins channel).added ++ [joinData], (joinChangeOf joins channel).removed⟩
          else ⟨(joinChangeOf joins channel).added, (joinChangeOf joins channel).removed ++ [joinData]⟩ := by
        rw [joinChangeOf, addJoinChange, AList.lookup_insert]
        rfl
      rw [hLookup, List.count_cons_self]
      cases add <;> simp [List.replicate_succ]
    · have hLookup : joinChangeOf (addJoinChange joinData add joins channel) c = joinChangeOf joins c := by
        rw [joinChangeOf, addJoinChange, AList.lookup_insert_ne hNe.symm]
        rfl
      rw [hLookup, List.count_cons_of_ne hNe]

theorem mem_foldl_addJoinChange (joinData : Bytes) (add : Bool) (channels : List Bytes)
    (joins : AList fun _ : Bytes => ChannelChange Bytes) (c : Bytes) :
    c ∈ channels.foldl (addJoinChange joinData add) joins ↔ c ∈ joins ∨ c ∈ channels := by
  induction channels generalizing joins with
  | nil => simp
  | cons channel channels ih =>
    have hStep : c ∈ addJoinChange joinData add joins channel ↔ c = channel ∨ c ∈ joins := AList.mem_insert _
    rw [List.foldl_cons, ih, hStep, List.mem_cons]
    tauto

theorem collectJoin_eq_ok {joins joins' : AList fun _ : Bytes => ChannelChange Bytes} {actions : ConsumeAndJoinActions}
    (h : collectJoin joinsMap joins actions = .ok joins') (c : Bytes) :
    joinChangeOf joins' c = ⟨(joinChangeOf joins c).added ++ actions.addedOn joinsMap c,
        (joinChangeOf joins c).removed ++ actions.removedOn joinsMap c⟩ ∧
      (c ∈ joins' ↔ c ∈ joins ∨ c ∈ actions.joinChannels) := by
  rw [ConsumeAndJoinActions.addedOn, ConsumeAndJoinActions.removedOn, ConsumeAndJoinActions.joinChannels]
  rw [collectJoin] at h
  rcases hKind : actions.joinAction with _ | ⟨channels⟩ | ⟨channels⟩ <;> rw [hKind] at h <;> dsimp only at h ⊢
  · obtain rfl := Except.ok.inj h
    simp
  all_goals
    cases hLookup : joinsMap.lookup channels with
    | none =>
      rw [hLookup] at h
      cases h
    | some joinData =>
      rw [hLookup] at h
      obtain rfl := Except.ok.inj h
      rw [joinChangeOf_foldl_addJoinChange, mem_foldl_addJoinChange]
      simp

theorem collectJoins_eq_ok {actions : List ConsumeAndJoinActions}
    {joins joins' : AList fun _ : Bytes => ChannelChange Bytes}
    (h : actions.foldlM (collectJoin joinsMap) joins = .ok joins') (c : Bytes) :
    joinChangeOf joins' c = ⟨(joinChangeOf joins c).added ++ actions.flatMap (·.addedOn joinsMap c),
        (joinChangeOf joins c).removed ++ actions.flatMap (·.removedOn joinsMap c)⟩ ∧
      (c ∈ joins' ↔ c ∈ joins ∨ ∃ a ∈ actions, c ∈ a.joinChannels) := by
  induction actions generalizing joins with
  | nil =>
    obtain rfl := Except.ok.inj h
    simp
  | cons a actions ih =>
    rw [List.foldlM_cons] at h
    obtain ⟨next, hStep, h⟩ := exists_of_bind_ok h
    obtain ⟨hChange, hMem⟩ := collectJoin_eq_ok hStep c
    obtain ⟨hRest, hRestMem⟩ := ih h
    rw [hRest, hChange, hRestMem, hMem]
    simp [or_assoc]

theorem collectJoins_isOk {actions : List ConsumeAndJoinActions}
    (hRecorded : ∀ a ∈ actions, a.joinAction ≠ none → a.joinChannels ∈ joinsMap)
    (joins : AList fun _ : Bytes => ChannelChange Bytes) :
    ∃ joins', actions.foldlM (collectJoin joinsMap) joins = .ok joins' := by
  induction actions generalizing joins with
  | nil => exact ⟨joins, rfl⟩
  | cons a actions ih =>
    have hStep : ∃ next, collectJoin joinsMap joins a = .ok next := by
      have hHead := hRecorded a List.mem_cons_self
      rw [ConsumeAndJoinActions.joinChannels] at hHead
      rw [collectJoin]
      rcases hKind : a.joinAction with _ | ⟨channels⟩ | ⟨channels⟩
      · exact ⟨joins, rfl⟩
      all_goals
        rw [hKind] at hHead
        obtain ⟨joinData, hLookup⟩ :=
          Option.isSome_iff_exists.mp (AList.lookup_isSome.mpr (hHead (Option.some_ne_none _)))
        dsimp only
        rw [hLookup]
        exact ⟨_, rfl⟩
    obtain ⟨next, hNext⟩ := hStep
    obtain ⟨joins', hRest⟩ := ih (fun a' ha' => hRecorded a' (List.mem_cons_of_mem a ha')) next
    refine ⟨joins', ?_⟩
    rw [List.foldlM_cons, hNext]
    exact hRest

end collectJoin

section consumes

variable {C : Type} {codec : DatumCodec} {joinCodec : JoinCodec C} {base : BaseHistory HotStoreBinaryAction}
  {state : TrieState} {change : StateChange} {joins : Set (List Bytes)} {results : List (Option ConsumeAndJoinActions)}

def contLeaf (codec : DatumCodec) (consumeChannels : List Bytes) : TrieSlot × Bytes :=
  (.continuations, hashFromHashes codec.blake consumeChannels)

def contChangesSorted (codec : DatumCodec) (change : StateChange) :
    List (Sigma fun _ : List Bytes => ChannelChange Bytes) :=
  sortByKey (fun entry => hashFromHashes codec.blake entry.1) change.contChanges.entries

variable {ks : List Bytes} {ch : ChannelChange Bytes}

theorem mem_contChangesSorted :
    ⟨ks, ch⟩ ∈ contChangesSorted codec change ↔ change.contChanges.lookup ks = some ch := by
  rw [contChangesSorted, (perm_sortByKey _ _).mem_iff]
  exact AList.mem_lookup_iff.symm

/-- An action of the continuations of a join, with what it does to the join's records. -/
structure ActsOn (codec : DatumCodec) (state : TrieState) (change : StateChange) (ks : List Bytes)
    (ch : ChannelChange Bytes) (a : ConsumeAndJoinActions) : Prop where
  lookup : change.contChanges.lookup ks = some ch
  write : a.consumeAction.write = (contLeaf codec ks, changed (state (contLeaf codec ks)) ch)
  changes : state (contLeaf codec ks) ≠ changed (state (contLeaf codec ks)) ch
  joinAction : a.joinAction = if state (contLeaf codec ks) = [] then some (.addJoin ks)
    else if changed (state (contLeaf codec ks)) ch = [] then some (.removeJoin ks) else none

theorem ActsOn.mem {a : ConsumeAndJoinActions}
    (h : ActsOn codec state change ks ch a) : ks ∈ change.contChanges := by
  rw [← AList.lookup_isSome, h.lookup]
  rfl

variable (hReads : Reads base state)
  (hResults : (contChangesSorted codec change).mapM (consumeAndJoinActions codec base) = .ok results)
include hReads hResults

theorem exists_actsOn {a : ConsumeAndJoinActions} (ha : a ∈ results.reduceOption) :
    ∃ ks ch, ActsOn codec state change ks ch a := by
  obtain ⟨⟨ks, ch⟩, hMem, hAction⟩ := (mem_of_mapM_ok hResults (some a)).mp (List.reduceOption_mem_iff.mp ha)
  rcases consumeAndJoinActions_eq_ok hReads hAction with ⟨-, hNone⟩ | ⟨actions, hSome, hWrite, hNe, hJoin⟩
  · cases hNone
  · obtain rfl := Option.some.inj hSome
    exact ⟨ks, ch, mem_contChangesSorted.mp hMem, hWrite, hNe, hJoin⟩

theorem exists_action (hLookup : change.contChanges.lookup ks = some ch) :
    ch = ⟨[], []⟩ ∨ ∃ a ∈ results.reduceOption, ActsOn codec state change ks ch a := by
  obtain ⟨result, hMem, hAction⟩ := exists_of_mapM_ok hResults (mem_contChangesSorted.mpr hLookup)
  rcases consumeAndJoinActions_eq_ok hReads hAction with ⟨hNetted, -⟩ | ⟨actions, rfl, hWrite, hNe, hJoin⟩
  · exact Or.inl hNetted
  · exact Or.inr ⟨actions, List.reduceOption_mem_iff.mpr hMem, hLookup, hWrite, hNe, hJoin⟩

variable (hKnown : ∀ ks ∈ change.contChanges, ks ∈ joins)
  (hInj : Set.InjOn (hashFromHashes codec.blake) joins)
include hKnown hInj

theorem nodup_contLeaves : ((results.reduceOption.map (·.consumeAction.write.1))).Nodup := by
  have hSub := sublist_of_mapM_ok hResults (fun entry => contLeaf codec entry.1)
    (fun a : ConsumeAndJoinActions => a.consumeAction.write.1) (by
      rintro ⟨ks, ch⟩ - a hAction
      rcases consumeAndJoinActions_eq_ok hReads hAction with ⟨-, hNone⟩ | ⟨actions, hSome, hWrite, -⟩
      · cases hNone
      · obtain rfl := Option.some.inj hSome
        rw [hWrite]
        rfl)
  refine hSub.nodup ?_
  have hPerm : ((contChangesSorted codec change).map Sigma.fst).Perm change.contChanges.keys :=
    (perm_sortByKey _ _).map Sigma.fst
  have hNodup := hPerm.nodup_iff.mpr change.contChanges.nodupKeys
  rw [← Function.comp_def (contLeaf codec) Sigma.fst, ← List.map_map]
  refine hNodup.map_on ?_
  intro ks hks ks' hks' hEq
  exact hInj (hKnown ks (hPerm.mem_iff.mp hks)) (hKnown ks' (hPerm.mem_iff.mp hks')) (congrArg Prod.snd hEq)

end consumes

section records

variable {C : Type} (joinCodec : JoinCodec C) {codec : DatumCodec} {base : BaseHistory HotStoreBinaryAction}
  {state : TrieState} {change : StateChange} {joins : Set (List Bytes)} {results : List (Option ConsumeAndJoinActions)}

def recordCount (ks : List Bytes) (records : List Bytes) : Nat :=
  records.countP fun rawJoin => joinCodec.recordKey rawJoin = some ks

variable {joinCodec}

variable {ks : List Bytes}

theorem recordCount_replicate {ks' : List Bytes} {rawJoin : Bytes} (hKey : joinCodec.recordKey rawJoin = some ks')
    (n : Nat) : recordCount joinCodec ks (List.replicate n rawJoin) = if ks' = ks then n else 0 := by
  rw [recordCount, List.countP_replicate, hKey]
  simp only [Option.some.injEq, decide_eq_true_eq]

variable {ch : ChannelChange Bytes} {a : ConsumeAndJoinActions}

theorem ActsOn.records
    (h : ActsOn codec state change ks ch a) {rawJoin : Bytes}
    (hRecord : change.consumeChannelsToJoinSerializedMap.lookup ks = some rawJoin) (c : Bytes) :
    let records := List.replicate (ks.count c) rawJoin
    a.addedOn change.consumeChannelsToJoinSerializedMap c = (if state (contLeaf codec ks) = [] then records else []) ∧
      a.removedOn change.consumeChannelsToJoinSerializedMap c =
        (if state (contLeaf codec ks) ≠ [] ∧ changed (state (contLeaf codec ks)) ch = [] then records else []) := by
  rw [ConsumeAndJoinActions.addedOn, ConsumeAndJoinActions.removedOn, h.joinAction]
  by_cases hEmpty : state (contLeaf codec ks) = []
  · simp [hEmpty, hRecord]
  · by_cases hGone : changed (state (contLeaf codec ks)) ch = [] <;> simp [hEmpty, hGone, hRecord]

variable (hRecords : RecordsJoins joinCodec change)
include hRecords

theorem ActsOn.recordKey_of_mem
    (h : ActsOn codec state change ks ch a) {c b : Bytes}
    (hb : b ∈ a.addedOn change.consumeChannelsToJoinSerializedMap c ∨
      b ∈ a.removedOn change.consumeChannelsToJoinSerializedMap c) : joinCodec.recordKey b = some ks := by
  obtain ⟨rawJoin, hLookup, hKey⟩ := hRecords.exists_record h.mem
  obtain ⟨hAdded, hRemoved⟩ := h.records hLookup c
  rw [hAdded, hRemoved] at hb
  have hEq : b = rawJoin := by
    rcases hb with hb | hb
    · split_ifs at hb
      · exact List.eq_of_mem_replicate hb
      · cases hb
    · split_ifs at hb
      · exact List.eq_of_mem_replicate hb
      · cases hb
  rw [hEq, hKey]

omit hRecords

variable (hReads : Reads base state)
  (hResults : (contChangesSorted codec change).mapM (consumeAndJoinActions codec base) = .ok results)
  (hKnown : ∀ ks ∈ change.contChanges, ks ∈ joins) (hInj : Set.InjOn (hashFromHashes codec.blake) joins)
  {side : ConsumeAndJoinActions → List Bytes}
  (hSide : ∀ a ks ch, ActsOn codec state change ks ch a → ∀ b ∈ side a, joinCodec.recordKey b = some ks)
include hReads hResults hSide

theorem recordCount_flatMap_eq_zero
    (hNone : ∀ a ∈ results.reduceOption, ∀ ch, ¬ ActsOn codec state change ks ch a) :
    recordCount joinCodec ks (results.reduceOption.flatMap side) = 0 := by
  rw [recordCount, List.countP_eq_zero]
  intro b hb
  obtain ⟨a, ha, hb⟩ := List.mem_flatMap.mp hb
  obtain ⟨ks', ch, hActs⟩ := exists_actsOn hReads hResults ha
  rw [hSide a ks' ch hActs b hb]
  simp only [Option.some.injEq, decide_eq_true_eq]
  rintro rfl
  exact hNone a ha ch hActs

include hKnown hInj

theorem recordCount_flatMap
    (ha : a ∈ results.reduceOption) (h : ActsOn codec state change ks ch a) :
    recordCount joinCodec ks (results.reduceOption.flatMap side) = recordCount joinCodec ks (side a) := by
  refine countP_flatMap_of_nodup _ (nodup_contLeaves hReads hResults hKnown hInj) ha ?_
  intro a' ha' hNe b hb
  obtain ⟨ks', ch', hActs⟩ := exists_actsOn hReads hResults ha'
  rw [hSide a' ks' ch' hActs b hb]
  simp only [Option.some.injEq, decide_eq_false_iff_not]
  rintro rfl
  exact hNe (by rw [h.write, hActs.write])

end records

section stages

variable {codec : DatumCodec} {base : BaseHistory HotStoreBinaryAction} {multiWriterChannels : Finset Bytes}
  {change : StateChange} {mergeableChs : NumberChannelsDiff} {consumes : List (Option ConsumeAndJoinActions)}
  {produces : List (Option HotStoreBinaryAction)} {joinsChanges : AList fun _ : Bytes => ChannelChange Bytes}
  {joinActions : List HotStoreBinaryAction}

def joinsAction (base : BaseHistory HotStoreBinaryAction) (entry : Sigma fun _ : Bytes => ChannelChange Bytes) :
    Except HistoryError HotStoreBinaryAction :=
  makeTrieAction entry.1 "joins" base.getJoinsProjBinary entry.2 .deleteJoins .insertJoins

/-- The stages of `computeTrieActions`, each with what it returned. -/
structure TrieStages (codec : DatumCodec) (base : BaseHistory HotStoreBinaryAction) (multiWriterChannels : Finset Bytes)
    (change : StateChange) (mergeableChs : NumberChannelsDiff) (consumes : List (Option ConsumeAndJoinActions))
    (produces : List (Option HotStoreBinaryAction)) (joinsChanges : AList fun _ : Bytes => ChannelChange Bytes)
    (joinActions : List HotStoreBinaryAction) : Prop where
  consumes_eq : (contChangesSorted codec change).mapM (consumeAndJoinActions codec base) = .ok consumes
  produces_eq : (sortByKey Sigma.fst change.datumsChanges.entries).mapM (produceTrieAction base fun channel change =>
    handleChannelChange codec base multiWriterChannels channel change mergeableChs) = .ok produces
  joinsChanges_eq : consumes.reduceOption.foldlM (collectJoin change.consumeChannelsToJoinSerializedMap) ∅ =
    .ok joinsChanges
  joinActions_eq : (sortByKey Sigma.fst joinsChanges.entries).mapM (joinsAction base) = .ok joinActions

def stagedActions (consumes : List (Option ConsumeAndJoinActions)) (produces : List (Option HotStoreBinaryAction))
    (joinActions : List HotStoreBinaryAction) : List HotStoreBinaryAction :=
  produces.reduceOption ++ consumes.reduceOption.map (·.consumeAction) ++ joinActions

theorem exists_trieStages {actions : List HotStoreBinaryAction}
    (h : computeTrieActions codec base multiWriterChannels change mergeableChs = .ok actions) :
    ∃ consumes produces joinsChanges joinActions,
      TrieStages codec base multiWriterChannels change mergeableChs consumes produces joinsChanges joinActions ∧
        actions = stagedActions consumes produces joinActions := by
  obtain ⟨consumes, hConsumes, h⟩ := exists_of_bind_ok h
  obtain ⟨produces, hProduces, h⟩ := exists_of_bind_ok h
  obtain ⟨joinsChanges, hJoins, h⟩ := exists_of_bind_ok h
  obtain ⟨joinActions, hActions, h⟩ := exists_of_bind_ok h
  obtain rfl := Except.ok.inj h
  exact ⟨consumes, produces, joinsChanges, joinActions,
    ⟨eq_ok_of_mapError hConsumes, hProduces, eq_ok_of_mapError hJoins, eq_ok_of_mapError hActions⟩, rfl⟩

theorem TrieStages.computeTrieActions_eq
    (h : TrieStages codec base multiWriterChannels change mergeableChs consumes produces joinsChanges joinActions) :
    computeTrieActions codec base multiWriterChannels change mergeableChs =
      .ok (stagedActions consumes produces joinActions) := by
  have hConsumes := h.consumes_eq
  have hActions := h.joinActions_eq
  rw [contChangesSorted] at hConsumes
  unfold joinsAction at hActions
  rw [computeTrieActions, hConsumes]
  dsimp only [ofHistory, Except.mapError, bind, Except.bind]
  rw [h.produces_eq]
  dsimp only
  rw [h.joinsChanges_eq]
  dsimp only
  rw [hActions]
  rfl

section reading

theorem leaf_ne {slot slot' : TrieSlot} (hNe : slot ≠ slot') {actions actions' : List HotStoreBinaryAction}
    (hSlot : ∀ a ∈ actions, a.write.1.1 = slot) (hSlot' : ∀ a ∈ actions', a.write.1.1 = slot') :
    ∀ leaf ∈ actions.map (·.write.1), ∀ leaf' ∈ actions'.map (·.write.1), leaf ≠ leaf' := by
  rintro leaf hLeaf _ hLeaf' rfl
  obtain ⟨a, ha, rfl⟩ := List.mem_map.mp hLeaf
  obtain ⟨a', ha', hEq⟩ := List.mem_map.mp hLeaf'
  exact hNe ((hSlot a ha).symm.trans ((congrArg Prod.fst hEq).symm.trans (hSlot' a' ha')))

variable {state : TrieState} {joins : Set (List Bytes)} (hReads : Reads base state)
  (h : TrieStages codec base multiWriterChannels change mergeableChs consumes produces joinsChanges joinActions)
include hReads h

theorem TrieStages.nodup_produces : (produces.reduceOption.map (·.write.1)).Nodup := by
  have hSub := sublist_of_mapM_ok h.produces_eq (fun entry => (TrieSlot.data, entry.1)) (·.write.1)
    fun entry _ action hAction => leaf_of_produceTrieAction hReads hAction
  refine hSub.nodup ?_
  rw [← Function.comp_def (Prod.mk TrieSlot.data) Sigma.fst, ← List.map_map]
  refine List.Nodup.map (Prod.mk_right_injective _) ?_
  exact ((perm_sortByKey _ _).map Sigma.fst).nodup_iff.mpr change.datumsChanges.nodupKeys

theorem TrieStages.nodup_joins : (joinActions.map (·.write.1)).Nodup := by
  have hMap := map_eq_of_mapM_ok h.joinActions_eq (fun entry => (TrieSlot.joins, entry.1)) (·.write.1)
    fun entry _ action hAction =>
      congrArg Prod.fst (makeTrieAction_eq_ok (hReads.joins entry.1) rfl (fun _ => rfl) hAction).2
  rw [hMap, ← Function.comp_def (Prod.mk TrieSlot.joins) Sigma.fst, ← List.map_map]
  refine List.Nodup.map (Prod.mk_right_injective _) ?_
  exact ((perm_sortByKey _ _).map Sigma.fst).nodup_iff.mpr joinsChanges.nodupKeys

variable {action : HotStoreBinaryAction}

theorem TrieStages.slots :
    (action ∈ produces.reduceOption → action.write.1.1 = .data) ∧
      (action ∈ consumes.reduceOption.map (·.consumeAction) → action.write.1.1 = .continuations) ∧
      (action ∈ joinActions → action.write.1.1 = .joins) := by
  refine ⟨fun ha => ?_, fun ha => ?_, fun ha => ?_⟩
  · obtain ⟨entry, -, hAction⟩ := (mem_of_mapM_ok h.produces_eq (some action)).mp (List.reduceOption_mem_iff.mp ha)
    rw [leaf_of_produceTrieAction hReads hAction]
  · obtain ⟨a, ha', rfl⟩ := List.mem_map.mp ha
    obtain ⟨ks, ch, hActs⟩ := exists_actsOn hReads h.consumes_eq ha'
    rw [hActs.write]
    rfl
  · obtain ⟨entry, -, hAction⟩ := (mem_of_mapM_ok h.joinActions_eq action).mp ha
    rw [(makeTrieAction_eq_ok (hReads.joins entry.1) rfl (fun _ => rfl) hAction).2]

theorem TrieStages.mem_of_slot
    (ha : action ∈ stagedActions consumes produces joinActions) :
    match action.write.1.1 with
    | .data => action ∈ produces.reduceOption
    | .continuations => action ∈ consumes.reduceOption.map (·.consumeAction)
    | .joins => action ∈ joinActions := by
  rw [stagedActions, List.mem_append, List.mem_append] at ha
  rcases ha with (ha | ha) | ha
  · rw [(h.slots hReads).1 ha]
    exact ha
  · rw [(h.slots hReads).2.1 ha]
    exact ha
  · rw [(h.slots hReads).2.2 ha]
    exact ha

variable (hKnown : ∀ ks ∈ change.contChanges, ks ∈ joins) (hInj : Set.InjOn (hashFromHashes codec.blake) joins)
include hKnown hInj

theorem TrieStages.nodup : (((stagedActions consumes produces joinActions).map (·.write)).map Prod.fst).Nodup := by
  have hConsumes : ((consumes.reduceOption.map (·.consumeAction)).map (·.write.1)).Nodup := by
    rw [List.map_map]
    exact nodup_contLeaves hReads h.consumes_eq hKnown hInj
  rw [List.map_map]
  change ((stagedActions consumes produces joinActions).map (·.write.1)).Nodup
  rw [stagedActions, List.map_append, List.map_append]
  refine List.nodup_append.mpr ⟨List.nodup_append.mpr ⟨h.nodup_produces hReads, hConsumes, ?_⟩, h.nodup_joins hReads, ?_⟩
  · exact leaf_ne (by decide) (fun a => (h.slots hReads).1) (fun a => (h.slots hReads).2.1)
  · rw [← List.map_append]
    intro leaf hLeaf
    obtain ⟨action, ha, rfl⟩ := List.mem_map.mp hLeaf
    rcases List.mem_append.mp ha with ha | ha
    · exact leaf_ne (by decide) (fun a => (h.slots hReads).1) (fun a => (h.slots hReads).2.2) _ (List.mem_map_of_mem ha)
    · exact leaf_ne (by decide) (fun a => (h.slots hReads).2.1) (fun a => (h.slots hReads).2.2) _ (List.mem_map_of_mem ha)

theorem TrieStages.read_of_mem (ha : action ∈ stagedActions consumes produces joinActions) :
    applyActions state (stagedActions consumes produces joinActions) action.write.1 = action.write.2 :=
  applyWrites_of_mem (h.nodup hReads hKnown hInj) (List.mem_map_of_mem ha) state

omit hReads h hKnown hInj in
theorem read_of_notMem {leaf : TrieSlot × Bytes}
    (hNone : ∀ action ∈ stagedActions consumes produces joinActions, action.write.1 ≠ leaf) :
    applyActions state (stagedActions consumes produces joinActions) leaf = state leaf := by
  refine applyWrites_of_notMem ?_ state
  intro hMem
  obtain ⟨write, hWrite, rfl⟩ := List.mem_map.mp hMem
  obtain ⟨action, ha, rfl⟩ := List.mem_map.mp hWrite
  exact hNone action ha rfl

omit hKnown hInj in
theorem TrieStages.produceTrieAction_of_leaf {channel : Bytes}
    (ha : action ∈ stagedActions consumes produces joinActions) (hLeaf : action.write.1 = (.data, channel)) :
    ∃ ch, change.datumsChanges.lookup channel = some ch ∧ produceTrieAction base (fun channel change =>
      handleChannelChange codec base multiWriterChannels channel change mergeableChs) ⟨channel, ch⟩ =
        .ok (some action) := by
  have hMem := h.mem_of_slot hReads ha
  rw [hLeaf] at hMem
  obtain ⟨⟨channel', ch⟩, hEntry, hAction⟩ :=
    (mem_of_mapM_ok h.produces_eq (some action)).mp (List.reduceOption_mem_iff.mp hMem)
  obtain rfl : channel' = channel := congrArg Prod.snd ((leaf_of_produceTrieAction hReads hAction).symm.trans hLeaf)
  exact ⟨ch, AList.mem_lookup_iff.mpr ((perm_sortByKey _ _).mem_iff.mp hEntry), hAction⟩

variable {ch : ChannelChange Bytes}

omit hReads hKnown hInj in
theorem TrieStages.exists_produceTrieAction {channel : Bytes}
    (hLookup : change.datumsChanges.lookup channel = some ch) :
    ∃ result ∈ produces, produceTrieAction base (fun channel change =>
      handleChannelChange codec base multiWriterChannels channel change mergeableChs) ⟨channel, ch⟩ = .ok result :=
  exists_of_mapM_ok h.produces_eq ((perm_sortByKey _ _).mem_iff.mpr (AList.mem_lookup_iff.mp hLookup))

theorem TrieStages.read_produced (ha : some action ∈ produces) :
    applyActions state (stagedActions consumes produces joinActions) action.write.1 = action.write.2 := by
  refine h.read_of_mem hReads hKnown hInj ?_
  rw [stagedActions, List.mem_append, List.mem_append]
  exact Or.inl (Or.inl (List.reduceOption_mem_iff.mpr ha))

theorem TrieStages.read_data {channel : Bytes}
    (hLookup : change.datumsChanges.lookup channel = some ch) (hNumber : channel ∉ mergeableChs) :
    applyActions state (stagedActions consumes produces joinActions) (.data, channel) =
      changed (state (.data, channel)) ch := by
  obtain ⟨result, hResult, hAction⟩ := h.exists_produceTrieAction hLookup
  rcases produceTrieAction_of_not_number hReads hNumber hAction with ⟨rfl, rfl⟩ | ⟨action, rfl, hWrite⟩
  · rw [changed_nil]
    refine read_of_notMem ?_
    intro action ha hLeaf
    obtain ⟨ch', hLookup', hAction'⟩ := h.produceTrieAction_of_leaf hReads ha hLeaf
    obtain rfl := Option.some.inj (hLookup.symm.trans hLookup')
    cases hAction.symm.trans hAction'
  · have hRead := h.read_produced hReads hKnown hInj hResult
    rwa [hWrite] at hRead

theorem TrieStages.read_number {channel : Bytes} (hMem : channel ∈ change.datumsChanges)
    (hNumber : channel ∈ mergeableChs) :
    ∃ value, applyActions state (stagedActions consumes produces joinActions) (.data, channel) = [value] := by
  obtain ⟨ch, hLookup⟩ := Option.isSome_iff_exists.mp (AList.lookup_isSome.mpr hMem)
  obtain ⟨result, hResult, hAction⟩ := h.exists_produceTrieAction hLookup
  obtain ⟨value, rfl⟩ := produceTrieAction_of_number hNumber hAction
  exact ⟨value, h.read_produced hReads hKnown hInj hResult⟩

omit hKnown hInj in
theorem TrieStages.read_untouched {channel : Bytes} (hMem : channel ∉ change.datumsChanges) :
    applyActions state (stagedActions consumes produces joinActions) (.data, channel) = state (.data, channel) := by
  refine read_of_notMem ?_
  intro action ha hLeaf
  obtain ⟨ch, hLookup, -⟩ := h.produceTrieAction_of_leaf hReads ha hLeaf
  rw [AList.lookup_eq_none.mpr hMem] at hLookup
  cases hLookup

variable {ks : List Bytes}

omit hKnown hInj in
theorem TrieStages.actsOn_of_leaf
    (ha : action ∈ stagedActions consumes produces joinActions) (hLeaf : action.write.1 = contLeaf codec ks) :
    ∃ a ∈ consumes.reduceOption, ∃ ks' ch, ActsOn codec state change ks' ch a ∧ contLeaf codec ks' = contLeaf codec ks := by
  have hMem := h.mem_of_slot hReads ha
  rw [hLeaf] at hMem
  obtain ⟨a, ha', rfl⟩ := List.mem_map.mp hMem
  obtain ⟨ks', ch, hActs⟩ := exists_actsOn hReads h.consumes_eq ha'
  refine ⟨a, ha', ks', ch, hActs, ?_⟩
  rw [← hLeaf, hActs.write]

theorem TrieStages.read_of_actsOn {a : ConsumeAndJoinActions}
    (ha : a ∈ consumes.reduceOption) (hActs : ActsOn codec state change ks ch a) :
    applyActions state (stagedActions consumes produces joinActions) (contLeaf codec ks) =
      changed (state (contLeaf codec ks)) ch := by
  have hStaged : a.consumeAction ∈ stagedActions consumes produces joinActions := by
    rw [stagedActions, List.mem_append, List.mem_append]
    exact Or.inl (Or.inr (List.mem_map_of_mem ha))
  have hRead := h.read_of_mem hReads hKnown hInj hStaged
  rwa [hActs.write] at hRead

theorem TrieStages.read_of_no_action (hMem : ks ∈ joins)
    (hNone : ∀ a ∈ consumes.reduceOption, ∀ ch, ¬ ActsOn codec state change ks ch a) :
    applyActions state (stagedActions consumes produces joinActions) (contLeaf codec ks) = state (contLeaf codec ks) := by
  refine read_of_notMem ?_
  intro action ha hLeaf
  obtain ⟨a, ha', ks', ch, hActs, hSame⟩ := h.actsOn_of_leaf hReads ha hLeaf
  obtain rfl := hInj (hKnown ks' hActs.mem) hMem (congrArg Prod.snd hSame)
  exact hNone a ha' ch hActs

theorem TrieStages.read_continuations
    (hLookup : change.contChanges.lookup ks = some ch) :
    applyActions state (stagedActions consumes produces joinActions) (contLeaf codec ks) =
      changed (state (contLeaf codec ks)) ch := by
  rcases exists_action hReads h.consumes_eq hLookup with rfl | ⟨a, ha, hActs⟩
  · rw [changed_nil]
    have hMem : ks ∈ change.contChanges := by
      rw [← AList.lookup_isSome, hLookup]
      rfl
    refine h.read_of_no_action hReads hKnown hInj (hKnown ks hMem) ?_
    intro a ha ch hActs
    obtain rfl := Option.some.inj (hLookup.symm.trans hActs.lookup)
    exact hActs.changes (changed_nil _).symm
  · exact h.read_of_actsOn hReads hKnown hInj ha hActs

omit hReads hKnown hInj in
theorem TrieStages.joinChangeOf_eq (c : Bytes) :
    joinChangeOf joinsChanges c =
      ⟨consumes.reduceOption.flatMap (·.addedOn change.consumeChannelsToJoinSerializedMap c),
        consumes.reduceOption.flatMap (·.removedOn change.consumeChannelsToJoinSerializedMap c)⟩ :=
  (collectJoins_eq_ok h.joinsChanges_eq c).1

theorem TrieStages.read_joins (c : Bytes) :
    (joinChangeOf joinsChanges c).removed.Subperm (state (.joins, c)) ∧
      applyActions state (stagedActions consumes produces joinActions) (.joins, c) =
        changed (state (.joins, c)) (joinChangeOf joinsChanges c) := by
  cases hLookup : joinsChanges.lookup c with
  | none =>
    have hNetted : joinChangeOf joinsChanges c = ⟨[], []⟩ := by rw [joinChangeOf, hLookup, Option.getD_none]
    rw [hNetted, changed_nil]
    refine ⟨List.nil_subperm, read_of_notMem ?_⟩
    intro action ha hLeaf
    have hMem := h.mem_of_slot hReads ha
    rw [hLeaf] at hMem
    obtain ⟨⟨c', ch⟩, hEntry, hAction⟩ := (mem_of_mapM_ok h.joinActions_eq action).mp hMem
    have hWrite := (makeTrieAction_eq_ok (hReads.joins c') rfl (fun _ => rfl) hAction).2
    obtain rfl : c' = c := congrArg Prod.snd ((congrArg Prod.fst hWrite).symm.trans hLeaf)
    have hSome := AList.mem_lookup_iff.mpr ((perm_sortByKey _ _).mem_iff.mp hEntry)
    rw [hLookup] at hSome
    cases hSome
  | some ch =>
    have hChange : joinChangeOf joinsChanges c = ch := by rw [joinChangeOf, hLookup, Option.getD_some]
    rw [hChange]
    obtain ⟨action, hMem, hAction⟩ := exists_of_mapM_ok h.joinActions_eq
      ((perm_sortByKey Sigma.fst _).mem_iff.mpr (AList.mem_lookup_iff.mp hLookup))
    obtain ⟨hFits, hWrite⟩ := makeTrieAction_eq_ok (hReads.joins c) rfl (fun _ => rfl) hAction
    refine ⟨hFits, ?_⟩
    have hStaged : action ∈ stagedActions consumes produces joinActions := by
      rw [stagedActions, List.mem_append]
      exact Or.inr hMem
    have hRead := h.read_of_mem hReads hKnown hInj hStaged
    rwa [hWrite] at hRead

end reading

end stages

end F1r3Node.Merging
