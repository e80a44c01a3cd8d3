import F1r3Node.Merging.TrieActions

/-! # The records of joins after a merge

The hot store keeps one record of a join on each of its channels, for as long as the join has continuations. A join
that lists a channel twice gets its record there twice, and cannot be forgotten.
-/

namespace F1r3Node.Merging

open Shared Lib

section recordedOnce

variable {C : Type} (joinCodec : JoinCodec C) (codec : DatumCodec) (joins : Set (List Bytes))

/-- Every channel of a join holds the record of the join once, as long as there are continuations. -/
def RecordedOnce (state : TrieState) : Prop :=
  ∀ ks ∈ joins, ∀ c ∈ ks,
    recordCount joinCodec ks (state (.joins, c)) = if state (contLeaf codec ks) = [] then 0 else 1

/-- The state after a merge: items are removed and added as the change says, a number channel holds its one
value, and the joins are recorded. -/
structure MergesInto (change : StateChange) (mergeableChs : NumberChannelsDiff) (state state' : TrieState) : Prop where
  data : ∀ c ch, change.datumsChanges.lookup c = some ch → c ∉ mergeableChs →
    (state' (.data, c) : Multiset Bytes) = (state (.data, c) : Multiset Bytes) - ch.removed + ch.added
  numbers : ∀ c ∈ change.datumsChanges, c ∈ mergeableChs → ∃ value, state' (.data, c) = [value]
  untouched : ∀ c ∉ change.datumsChanges, state' (.data, c) = state (.data, c)
  continuations : ∀ ks ch, change.contChanges.lookup ks = some ch →
    (state' (contLeaf codec ks) : Multiset Bytes) =
      (state (contLeaf codec ks) : Multiset Bytes) - ch.removed + ch.added
  recorded : RecordedOnce joinCodec codec joins state'

end recordedOnce

section fits

variable (codec : DatumCodec) (state : TrieState) (change : StateChange)

def JoinComes (ks : List Bytes) (ch : ChannelChange Bytes) : Prop := state (contLeaf codec ks) = [] ∧ ch.added ≠ []

def JoinGoes (ks : List Bytes) (ch : ChannelChange Bytes) : Prop :=
  state (contLeaf codec ks) ≠ [] ∧ changed (state (contLeaf codec ks)) ch = []

instance (ks : List Bytes) (ch : ChannelChange Bytes) : Decidable (JoinGoes codec state ks ch) :=
  inferInstanceAs (Decidable (_ ∧ _))

/-- A join that comes or goes has distinct channels, and one that goes is recorded at the base in the form
the change has for it. -/
def JoinsFit : Prop :=
  ∀ ks ch, change.contChanges.lookup ks = some ch →
    (JoinComes codec state ks ch → ks.Nodup) ∧
      (JoinGoes codec state ks ch → ks.Nodup ∧
        ∀ rawJoin, change.consumeChannelsToJoinSerializedMap.lookup ks = some rawJoin →
          ∀ c ∈ ks, rawJoin ∈ state (.joins, c))

end fits

section moved

variable {C : Type} {joinCodec : JoinCodec C} {codec : DatumCodec} {base : BaseHistory HotStoreBinaryAction}
  {state : TrieState} {change : StateChange} {joins : Set (List Bytes)} {consumes : List (Option ConsumeAndJoinActions)}
  (hReads : Reads base state) (hRecords : RecordsJoins joinCodec change)
  (hConsumes : (contChangesSorted codec change).mapM (consumeAndJoinActions codec base) = .ok consumes)

def addedRecords (change : StateChange) (consumes : List (Option ConsumeAndJoinActions)) (c : Bytes) : List Bytes :=
  consumes.reduceOption.flatMap (·.addedOn change.consumeChannelsToJoinSerializedMap c)

def removedRecords (change : StateChange) (consumes : List (Option ConsumeAndJoinActions)) (c : Bytes) : List Bytes :=
  consumes.reduceOption.flatMap (·.removedOn change.consumeChannelsToJoinSerializedMap c)

include hReads hRecords hConsumes

theorem recordCount_moved_eq_zero {ks : List Bytes}
    (hNone : ∀ a ∈ consumes.reduceOption, ∀ ch, ¬ ActsOn codec state change ks ch a) (c : Bytes) :
    recordCount joinCodec ks (addedRecords change consumes c) = 0 ∧
      recordCount joinCodec ks (removedRecords change consumes c) = 0 :=
  ⟨recordCount_flatMap_eq_zero hReads hConsumes
      (fun _ _ _ hActs _ hb => hActs.recordKey_of_mem hRecords (Or.inl hb)) hNone,
    recordCount_flatMap_eq_zero hReads hConsumes
      (fun _ _ _ hActs _ hb => hActs.recordKey_of_mem hRecords (Or.inr hb)) hNone⟩

variable (hKnown : ∀ ks ∈ change.contChanges, ks ∈ joins) (hInj : Set.InjOn (hashFromHashes codec.blake) joins)
include hKnown hInj

theorem recordCount_moved {ks : List Bytes} {ch : ChannelChange Bytes} {a : ConsumeAndJoinActions}
    (ha : a ∈ consumes.reduceOption) (hActs : ActsOn codec state change ks ch a) (c : Bytes) :
    recordCount joinCodec ks (addedRecords change consumes c) =
        (if state (contLeaf codec ks) = [] then ks.count c else 0) ∧
      recordCount joinCodec ks (removedRecords change consumes c) =
        (if JoinGoes codec state ks ch then ks.count c else 0) := by
  obtain ⟨rawJoin, hLookup, hKey⟩ := hRecords.exists_record hActs.mem
  obtain ⟨hAdded, hRemoved⟩ := hActs.records hLookup c
  rw [addedRecords, removedRecords,
    recordCount_flatMap hReads hConsumes hKnown hInj
      (fun _ _ _ hActs _ hb => hActs.recordKey_of_mem hRecords (Or.inl hb)) ha hActs,
    recordCount_flatMap hReads hConsumes hKnown hInj
      (fun _ _ _ hActs _ hb => hActs.recordKey_of_mem hRecords (Or.inr hb)) ha hActs, hAdded, hRemoved]
  constructor
  · split_ifs
    · exact (recordCount_replicate hKey _).trans (if_pos rfl)
    · rfl
  · by_cases hGoes : JoinGoes codec state ks ch
    · rw [if_pos hGoes, if_pos (show _ ∧ _ from hGoes)]
      exact (recordCount_replicate hKey _).trans (if_pos rfl)
    · rw [if_neg hGoes, if_neg (show ¬ (_ ∧ _) from hGoes)]
      rfl

theorem removedRecords_subperm (hFit : JoinsFit codec state change) (c : Bytes) :
    (removedRecords change consumes c).Subperm (state (.joins, c)) := by
  have hMoves : ∀ a ∈ consumes.reduceOption, (a.removedOn change.consumeChannelsToJoinSerializedMap c).Nodup ∧
      ∀ b ∈ a.removedOn change.consumeChannelsToJoinSerializedMap c, b ∈ state (.joins, c) := by
    intro a ha
    obtain ⟨ks, ch, hActs⟩ := exists_actsOn hReads hConsumes ha
    obtain ⟨rawJoin, hLookup, -⟩ := hRecords.exists_record hActs.mem
    rw [(hActs.records hLookup c).2]
    split_ifs with hGoes
    · obtain ⟨hNodup, hBase⟩ := (hFit ks ch hActs.lookup).2 hGoes
      refine ⟨List.nodup_replicate.mpr (List.nodup_iff_count_le_one.mp hNodup c), ?_⟩
      intro b hb
      obtain ⟨hCount, rfl⟩ := List.mem_replicate.mp hb
      exact hBase b hLookup c (List.count_pos_iff.mp (Nat.pos_of_ne_zero hCount))
    · exact ⟨List.nodup_nil, fun b hb => absurd hb List.not_mem_nil⟩
  apply List.subperm_of_subset
  · refine List.nodup_flatMap.mpr ⟨fun a ha => (hMoves a ha).1, ?_⟩
    have hLeaves := List.pairwise_map.mp (nodup_contLeaves hReads hConsumes hKnown hInj)
    refine hLeaves.imp_of_mem ?_
    intro a a' ha ha' hNe b hb hb'
    obtain ⟨ks, ch, hActs⟩ := exists_actsOn hReads hConsumes ha
    obtain ⟨ks', ch', hActs'⟩ := exists_actsOn hReads hConsumes ha'
    have hKey := hActs.recordKey_of_mem hRecords (Or.inr hb)
    have hKey' := hActs'.recordKey_of_mem hRecords (Or.inr hb')
    obtain rfl := Option.some.inj (hKey.symm.trans hKey')
    exact hNe (by rw [hActs.write, hActs'.write])
  · intro b hb
    obtain ⟨a, ha, hb⟩ := List.mem_flatMap.mp hb
    exact (hMoves a ha).2 b hb

end moved

section main

variable {C : Type} {joinCodec : JoinCodec C} {codec : DatumCodec} {base : BaseHistory HotStoreBinaryAction}
  {multiWriterChannels : Finset Bytes} {mergeableChs : NumberChannelsDiff} {state : TrieState} {change : StateChange}
  {joins : Set (List Bytes)} {consumes : List (Option ConsumeAndJoinActions)}
  {produces : List (Option HotStoreBinaryAction)} {joinsChanges : AList fun _ : Bytes => ChannelChange Bytes}
  {joinActions : List HotStoreBinaryAction} (hReads : Reads base state) (hRecords : RecordsJoins joinCodec change)
  (hKnown : ∀ ks ∈ change.contChanges, ks ∈ joins) (hInj : Set.InjOn (hashFromHashes codec.blake) joins)

include hReads hKnown hInj

variable (joinCodec) in
theorem TrieStages.recordCount_read
    (h : TrieStages codec base multiWriterChannels change mergeableChs consumes produces joinsChanges joinActions)
    (ks : List Bytes) (c : Bytes) :
    recordCount joinCodec ks (applyActions state (stagedActions consumes produces joinActions) (.joins, c)) +
        recordCount joinCodec ks (removedRecords change consumes c) =
      recordCount joinCodec ks (state (.joins, c)) + recordCount joinCodec ks (addedRecords change consumes c) := by
  obtain ⟨hFits, hRead⟩ := h.read_joins hReads hKnown hInj c
  rw [hRead, h.joinChangeOf_eq c] at *
  exact countP_changed hFits _

include hRecords

theorem TrieStages.recordedOnce
    (h : TrieStages codec base multiWriterChannels change mergeableChs consumes produces joinsChanges joinActions)
    (hBase : RecordedOnce joinCodec codec joins state) (hFit : JoinsFit codec state change) :
    RecordedOnce joinCodec codec joins (applyActions state (stagedActions consumes produces joinActions)) := by
  intro ks hks c hc
  have hRead := h.recordCount_read joinCodec hReads hKnown hInj ks c
  rw [hBase ks hks c hc] at hRead
  by_cases hActed : ∃ a ∈ consumes.reduceOption, ∃ ch, ActsOn codec state change ks ch a
  · obtain ⟨a, ha, ch, hActs⟩ := hActed
    obtain ⟨hAdded, hRemoved⟩ := recordCount_moved hReads hRecords h.consumes_eq hKnown hInj ha hActs c
    obtain ⟨hComes, hGoes⟩ := hFit ks ch hActs.lookup
    have hCount (hNodup : ks.Nodup) : ks.count c = 1 := List.count_eq_one_of_mem hNodup hc
    rw [hAdded, hRemoved] at hRead
    rw [h.read_of_actsOn hReads hKnown hInj ha hActs]
    by_cases hEmpty : state (contLeaf codec ks) = []
    · have hNe : changed (state (contLeaf codec ks)) ch ≠ [] := fun hNil =>
        hActs.changes (hEmpty.trans hNil.symm)
      have hNotGoes : ¬ JoinGoes codec state ks ch := fun hGoes => hGoes.1 hEmpty
      have hAddedNe : ch.added ≠ [] := by
        rw [hEmpty] at hNe
        exact hNe
      rw [if_pos hEmpty, if_pos hEmpty, if_neg hNotGoes, hCount (hComes ⟨hEmpty, hAddedNe⟩)] at hRead
      rw [if_neg hNe]
      omega
    · by_cases hGone : changed (state (contLeaf codec ks)) ch = []
      · rw [if_neg hEmpty, if_neg hEmpty, if_pos ⟨hEmpty, hGone⟩, hCount (hGoes ⟨hEmpty, hGone⟩).1] at hRead
        rw [if_pos hGone]
        omega
      · rw [if_neg hEmpty, if_neg hEmpty, if_neg fun hGoes => hGone hGoes.2] at hRead
        rw [if_neg hGone]
        omega
  · have hNone : ∀ a ∈ consumes.reduceOption, ∀ ch, ¬ ActsOn codec state change ks ch a :=
      fun a ha ch hActs => hActed ⟨a, ha, ch, hActs⟩
    obtain ⟨hAdded, hRemoved⟩ := recordCount_moved_eq_zero hReads hRecords h.consumes_eq hNone c
    rw [hAdded, hRemoved] at hRead
    rw [h.read_of_no_action hReads hKnown hInj hks hNone]
    omega

theorem TrieStages.joinsFit
    (h : TrieStages codec base multiWriterChannels change mergeableChs consumes produces joinsChanges joinActions)
    (hBase : RecordedOnce joinCodec codec joins state)
    (hAfter : RecordedOnce joinCodec codec joins (applyActions state (stagedActions consumes produces joinActions))) :
    JoinsFit codec state change := by
  intro ks ch hLookup
  have hMem : ks ∈ change.contChanges := by
    rw [← AList.lookup_isSome, hLookup]
    rfl
  have hks := hKnown ks hMem
  rcases exists_action hReads h.consumes_eq hLookup with rfl | ⟨a, ha, hActs⟩
  · refine ⟨fun hComes => absurd rfl hComes.2, fun hGoes => ?_⟩
    exact absurd ((changed_nil _).symm.trans hGoes.2) hGoes.1
  · have hMoved := recordCount_moved hReads hRecords h.consumes_eq hKnown hInj ha hActs
    constructor
    · intro hComes
      apply List.nodup_iff_count_le_one.mpr
      intro c
      by_cases hc : c ∈ ks
      · have hRead := h.recordCount_read joinCodec hReads hKnown hInj ks c
        have hLe : recordCount joinCodec ks
            (applyActions state (stagedActions consumes produces joinActions) (.joins, c)) ≤ 1 := by
          rw [hAfter ks hks c hc]
          split_ifs <;> omega
        rw [hBase ks hks c hc, (hMoved c).1, (hMoved c).2, if_pos hComes.1, if_pos hComes.1,
          if_neg fun hGoes => hGoes.1 hComes.1] at hRead
        omega
      · rw [List.count_eq_zero.mpr hc]
        omega
    · intro hGoes
      have hRemovedLe : ∀ c ∈ ks, ks.count c ≤ 1 := by
        intro c hc
        obtain ⟨hFits, -⟩ := h.read_joins hReads hKnown hInj c
        rw [h.joinChangeOf_eq c] at hFits
        have hCount : recordCount joinCodec ks (removedRecords change consumes c) ≤
            recordCount joinCodec ks (state (.joins, c)) := hFits.countP_le _
        rwa [(hMoved c).2, if_pos hGoes, hBase ks hks c hc, if_neg hGoes.1] at hCount
      refine ⟨List.nodup_iff_count_le_one.mpr fun c => ?_, ?_⟩
      · by_cases hc : c ∈ ks
        · exact hRemovedLe c hc
        · rw [List.count_eq_zero.mpr hc]
          omega
      · intro rawJoin hRaw c hc
        obtain ⟨hFits, -⟩ := h.read_joins hReads hKnown hInj c
        rw [h.joinChangeOf_eq c] at hFits
        refine hFits.subset (List.mem_flatMap.mpr ⟨a, ha, ?_⟩)
        rw [(hActs.records hRaw c).2, if_pos (show _ ∧ _ from hGoes)]
        exact List.mem_replicate.mpr ⟨(List.count_pos_iff.mpr hc).ne', rfl⟩

theorem exists_joinActions (hConsumes : (contChangesSorted codec change).mapM (consumeAndJoinActions codec base) = .ok consumes)
    (hJoins : consumes.reduceOption.foldlM (collectJoin change.consumeChannelsToJoinSerializedMap) ∅ = .ok joinsChanges)
    (hFit : JoinsFit codec state change) :
    ∃ joinActions, (sortByKey Sigma.fst joinsChanges.entries).mapM (joinsAction base) = .ok joinActions := by
  cases hMap : (sortByKey Sigma.fst joinsChanges.entries).mapM (joinsAction base) with
  | ok joinActions => exact ⟨joinActions, rfl⟩
  | error e =>
    obtain ⟨⟨c, ch⟩, hEntry, hError⟩ := exists_of_mapM_error hMap
    have hLookup : joinsChanges.lookup c = some ch :=
      AList.mem_lookup_iff.mpr ((perm_sortByKey _ _).mem_iff.mp hEntry)
    obtain ⟨hChange, hMem⟩ := collectJoins_eq_ok hJoins c
    have hCh : ch = ⟨addedRecords change consumes c, removedRecords change consumes c⟩ := by
      rw [joinChangeOf, hLookup] at hChange
      exact hChange
    have hSubperm := removedRecords_subperm hReads hRecords hConsumes hKnown hInj hFit c
    have hNe : state (.joins, c) ≠ changed (state (.joins, c)) ch := by
      intro hSame
      have hIn : c ∈ joinsChanges := by
        rw [← AList.lookup_isSome, hLookup]
        rfl
      obtain hEmpty | ⟨a, ha, hc⟩ := hMem.mp hIn
      · exact absurd hEmpty (AList.notMem_empty _)
      obtain ⟨ks, ch', hActs⟩ := exists_actsOn hReads hConsumes ha
      have hMoved := recordCount_moved hReads hRecords hConsumes hKnown hInj ha hActs c
      have hCount : recordCount joinCodec ks (changed (state (.joins, c)) ch) +
          recordCount joinCodec ks (removedRecords change consumes c) =
            recordCount joinCodec ks (state (.joins, c)) + recordCount joinCodec ks (addedRecords change consumes c) := by
        rw [hCh]
        exact countP_changed hSubperm _
      rw [← hSame, hMoved.1, hMoved.2] at hCount
      rw [ConsumeAndJoinActions.joinChannels, hActs.joinAction] at hc
      by_cases hEmpty : state (contLeaf codec ks) = []
      · rw [if_pos hEmpty] at hc
        have hPos : 0 < ks.count c := List.count_pos_iff.mpr hc
        rw [if_pos hEmpty, if_neg fun hGoes : JoinGoes codec state ks ch' => hGoes.1 hEmpty] at hCount
        omega
      · by_cases hGone : changed (state (contLeaf codec ks)) ch' = []
        · rw [if_neg hEmpty, if_pos hGone] at hc
          have hPos : 0 < ks.count c := List.count_pos_iff.mpr hc
          rw [if_neg hEmpty, if_pos ⟨hEmpty, hGone⟩] at hCount
          omega
        · rw [if_neg hEmpty, if_neg hGone] at hc
          exact absurd hc List.not_mem_nil
    have hFits : ch.removed.Subperm (state (.joins, c)) := by
      rw [hCh]
      exact hSubperm
    have hOk : ∃ action, joinsAction base ⟨c, ch⟩ = .ok action := makeTrieAction_isOk (hReads.joins c) hFits hNe
    obtain ⟨action, hOk⟩ := hOk
    cases hError.symm.trans hOk

omit hRecords in
/-- A change of the logs of blocks, each part of which fits the base, is merged into the base if and only if
the joins that come or go fit. -/
theorem mergesInto_iff_joinsFit (hLogs : FromLogs codec.blake joinCodec change)
    (hBase : RecordedOnce joinCodec codec joins state)
    (hProduces : ∀ entry ∈ change.datumsChanges.entries, ∃ result, produceTrieAction base (fun channel change =>
      handleChannelChange codec base multiWriterChannels channel change mergeableChs) entry = .ok result)
    (hConsumes : ∀ entry ∈ change.contChanges.entries, ∃ result, consumeAndJoinActions codec base entry = .ok result) :
    (∃ actions, computeTrieActions codec base multiWriterChannels change mergeableChs = .ok actions ∧
      MergesInto joinCodec codec joins change mergeableChs state (applyActions state actions)) ↔
        JoinsFit codec state change := by
  have hRecords := hLogs.recordsJoins
  constructor
  · rintro ⟨actions, hActions, hMerges⟩
    obtain ⟨consumes, produces, joinsChanges, joinActions, hStages, rfl⟩ := exists_trieStages hActions
    exact hStages.joinsFit hReads hRecords hKnown hInj hBase hMerges.recorded
  · intro hFit
    obtain ⟨consumes, hConsumesEq⟩ : ∃ consumes,
        (contChangesSorted codec change).mapM (consumeAndJoinActions codec base) = .ok consumes :=
      exists_mapM_ok fun entry hEntry => hConsumes entry ((perm_sortByKey _ _).mem_iff.mp hEntry)
    obtain ⟨produces, hProducesEq⟩ := exists_mapM_ok
      fun entry hEntry => hProduces entry ((perm_sortByKey Sigma.fst _).mem_iff.mp hEntry)
    have hRecorded : ∀ a ∈ consumes.reduceOption, a.joinAction ≠ none →
        a.joinChannels ∈ change.consumeChannelsToJoinSerializedMap := by
      intro a ha hSome
      obtain ⟨ks, ch, hActs⟩ := exists_actsOn hReads hConsumesEq ha
      have hMem := hRecords.recorded ks hActs.mem
      rw [ConsumeAndJoinActions.joinChannels]
      rw [hActs.joinAction] at hSome ⊢
      split_ifs at hSome ⊢
      · exact hMem
      · exact hMem
      · exact absurd rfl hSome
    obtain ⟨joinsChanges, hJoins⟩ := collectJoins_isOk hRecorded ∅
    obtain ⟨joinActions, hJoinActions⟩ :=
      exists_joinActions hReads hRecords hKnown hInj hConsumesEq hJoins hFit
    have hStages : TrieStages codec base multiWriterChannels change mergeableChs consumes produces joinsChanges joinActions :=
      ⟨hConsumesEq, hProducesEq, hJoins, hJoinActions⟩
    refine ⟨_, hStages.computeTrieActions_eq, ?_, ?_, ?_, ?_, ?_⟩
    · intro c ch hLookup hNumber
      rw [hStages.read_data hReads hKnown hInj hLookup hNumber, coe_changed]
    · intro c hMem hNumber
      exact hStages.read_number hReads hKnown hInj hMem hNumber
    · intro c hMem
      exact hStages.read_untouched hReads hMem
    · intro ks ch hLookup
      rw [hStages.read_continuations hReads hKnown hInj hLookup, coe_changed]
    · exact hStages.recordedOnce hReads hRecords hKnown hInj hBase hFit

end main

def byteCodec : JoinCodec UInt8 where
  hash c := List.replicate 32 c
  serialize join := join
  deserialize rawJoin := some rawJoin
  deserialize_serialize _ := rfl

def emptyReader : HistoryReader UInt8 where
  getDataProjBinary _ := .ok []
  getContinuationsProjBinary _ := .ok []
  getJoins _ := .ok []

/-- One continuation waits on the channels, with the record the hot store puts on each of them. -/
def waitingReader (channels : List UInt8) : HistoryReader UInt8 where
  getDataProjBinary _ := .ok []
  getContinuationsProjBinary _ := .ok [[1]]
  getJoins _ := .ok [channels]

def waitingIndex (channels : List UInt8) : EventLogIndex :=
  .new [.ioEvent (.consume ⟨byteCodec.joinChannels channels, [], false⟩)] (fun _ => false) (fun _ => false) ∅

def waitingChange (channels : List UInt8) : StateChange where
  datumsChanges := ∅
  contChanges := AList.singleton (byteCodec.joinChannels channels) ⟨[[1]], []⟩
  consumeChannelsToJoinSerializedMap := AList.singleton (byteCodec.joinChannels channels) channels

def byteDatumCodec : DatumCodec where
  blake := paddingDigest
  encodedDatumIsNumber _ := false
  decodeRnd bytes := bytes
  mergeRnds rnds := rnds.flatten
  encodeNumberDatum _ _ _ rnd := rnd

def emptyBase : BaseHistory HotStoreBinaryAction where
  getData _ := .ok []
  getDataProjBinary _ := .ok []
  getContinuationsProjBinary _ := .ok []
  getJoinsProjBinary _ := .ok []
  applyTrieActions _ := .ok []

theorem reads_emptyBase : Reads emptyBase fun _ => [] := ⟨fun _ => rfl, fun _ => rfl, fun _ => rfl⟩

theorem recordedOnce_nothing {C : Type} (joinCodec : JoinCodec C) (codec : DatumCodec) (joins : Set (List Bytes)) :
    RecordedOnce joinCodec codec joins fun _ => [] := fun _ _ _ _ => rfl

theorem sorted_waitingIndex {channels : List UInt8}
    (h : ∀ consume ∈ (waitingIndex channels).consumes, consume.channelHashes = byteCodec.joinChannels channels)
    (hSorted : sortByKey id (byteCodec.joinChannels channels) = byteCodec.joinChannels channels) :
    ∀ consume ∈ (waitingIndex channels).consumes, sortByKey id consume.channelHashes = consume.channelHashes := by
  intro consume hMem
  rw [h consume hMem, hSorted]

theorem fromLogs_waiting_pair : FromLogs paddingDigest byteCodec (waitingChange [7, 8]) := by
  have hNew : StateChange.new paddingDigest byteCodec emptyReader (waitingReader [7, 8]) (waitingIndex [7, 8]) =
      .ok (waitingChange [7, 8]) := rfl
  exact FromLogs.combine _ _ _ .empty (sorted_waitingIndex (by decide) rfl) hNew

theorem fromLogs_waiting_twice : FromLogs paddingDigest byteCodec (waitingChange [7, 7]) := by
  have hNew : StateChange.new paddingDigest byteCodec emptyReader (waitingReader [7, 7]) (waitingIndex [7, 7]) =
      .ok (waitingChange [7, 7]) := rfl
  exact FromLogs.combine _ _ _ .empty (sorted_waitingIndex (by decide) rfl) hNew

theorem mergesInto_waiting_pair :
    ∃ actions, computeTrieActions byteDatumCodec emptyBase ∅ (waitingChange [7, 8]) ∅ = .ok actions ∧
      MergesInto byteCodec byteDatumCodec {byteCodec.joinChannels [7, 8]} (waitingChange [7, 8]) ∅ (fun _ => [])
        (applyActions (fun _ => []) actions) := by
  refine (mergesInto_iff_joinsFit reads_emptyBase ?_ (Set.injOn_singleton _ _) fromLogs_waiting_pair
    (recordedOnce_nothing _ _ _) ?_ ?_).mpr ?_
  · intro ks hks
    exact List.mem_singleton.mp hks
  · intro entry hEntry
    cases hEntry
  · intro entry hEntry
    obtain rfl := List.mem_singleton.mp hEntry
    exact ⟨_, rfl⟩
  · intro ks ch hLookup
    have hMem := AList.mem_lookup_iff.mp hLookup
    obtain ⟨rfl, hCh⟩ := Sigma.mk.inj (List.mem_singleton.mp hMem)
    exact ⟨fun _ => by decide, fun hGoes => absurd rfl hGoes.1⟩

/-- The record of the join comes to the channel twice. -/
theorem not_mergesInto_waiting_twice :
    FromLogs paddingDigest byteCodec (waitingChange [7, 7]) ∧
      RecordedOnce byteCodec byteDatumCodec {byteCodec.joinChannels [7, 7]} (fun _ => []) ∧
      ∃ actions, computeTrieActions byteDatumCodec emptyBase ∅ (waitingChange [7, 7]) ∅ = .ok actions ∧
        applyActions (fun _ => []) actions (.joins, byteCodec.hash 7) = [[7, 7], [7, 7]] ∧
        ¬ MergesInto byteCodec byteDatumCodec {byteCodec.joinChannels [7, 7]} (waitingChange [7, 7]) ∅ (fun _ => [])
          (applyActions (fun _ => []) actions) := by
  refine ⟨fromLogs_waiting_twice, recordedOnce_nothing _ _ _, _, rfl, rfl, ?_⟩
  intro hMerges
  have hOnce := hMerges.recorded (byteCodec.joinChannels [7, 7]) rfl (byteCodec.hash 7) (by decide)
  exact absurd hOnce (by decide)

end F1r3Node.Merging
