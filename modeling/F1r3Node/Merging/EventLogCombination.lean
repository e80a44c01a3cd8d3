import F1r3Node.Lib.Fallible
import F1r3Node.Merging.DeployChainIndex
import F1r3Node.Merging.NumberChannelFolds

/-! # Combining event logs one by one and all at once

Combining all logs at once or two at a time gives the same log or the same failure, which is all that the order shows
in.
-/

namespace F1r3Node.Merging

open Shared Lib KeyedFolds

section numbers

variable {ε : Type} {mismatch : Bytes → MergeType → MergeType → ε} {overflow : Bytes → Int → Int → ε}

def SameDiffs (x y : Except ε NumberChannelsDiff) : Prop :=
  match x, y with
  | .ok diffs, .ok diffs' => ∀ k, diffs.lookup k = diffs'.lookup k
  | .error e, .error e' => e = e'
  | _, _ => False

theorem foldNumberChannel_congr {diffs diffs' : NumberChannelsDiff} (h : ∀ k, diffs.lookup k = diffs'.lookup k)
    (entry : Sigma fun _ : Bytes => Int × MergeType) :
    SameDiffs (foldNumberChannel mismatch overflow diffs entry) (foldNumberChannel mismatch overflow diffs' entry) := by
  have hInsert : ∀ v k, (diffs.insert entry.1 v).lookup k = (diffs'.insert entry.1 v).lookup k := by
    intro v k
    obtain rfl | hNe := eq_or_ne k entry.1
    · rw [AList.lookup_insert, AList.lookup_insert]
    · rw [AList.lookup_insert_ne hNe, AList.lookup_insert_ne hNe, h]
  unfold foldNumberChannel
  rw [h entry.1]
  cases diffs'.lookup entry.1 with
  | none => exact hInsert entry.2
  | some existing =>
    dsimp only
    split_ifs
    · exact rfl
    · cases combineMergeableValue existing.1 entry.2.1 entry.2.2 with
      | none => exact rfl
      | some combined => exact hInsert (combined, existing.2)

theorem foldlM_foldNumberChannel_congr {diffs diffs' : NumberChannelsDiff} (h : ∀ k, diffs.lookup k = diffs'.lookup k)
    (entries : List (Sigma fun _ : Bytes => Int × MergeType)) :
    SameDiffs (entries.foldlM (foldNumberChannel mismatch overflow) diffs)
      (entries.foldlM (foldNumberChannel mismatch overflow) diffs') := by
  induction entries generalizing diffs diffs' with
  | nil => exact h
  | cons entry entries ih =>
    have hStep := @foldNumberChannel_congr ε mismatch overflow _ _ h entry
    rw [List.foldlM_cons, List.foldlM_cons]
    cases hNext : foldNumberChannel mismatch overflow diffs entry with
    | error e =>
      cases hNext' : foldNumberChannel mismatch overflow diffs' entry with
      | error e' =>
        rw [hNext, hNext'] at hStep
        exact hStep
      | ok next' =>
        rw [hNext, hNext'] at hStep
        exact hStep.elim
    | ok next =>
      cases hNext' : foldNumberChannel mismatch overflow diffs' entry with
      | error e' =>
        rw [hNext, hNext'] at hStep
        exact hStep.elim
      | ok next' =>
        rw [hNext, hNext'] at hStep
        exact ih hStep

theorem exists_copy (diffs : NumberChannelsDiff) :
    ∃ copy, diffs.entries.foldlM (foldNumberChannel mismatch overflow) ∅ = .ok copy ∧
      ∀ k, copy.lookup k = diffs.lookup k := by
  have hOption := @toOption_foldlM_foldNumberChannel ε mismatch overflow diffs.entries ∅
  have hGather : ∀ k, gather combineAlike (valuesAt k diffs.entries) = some (diffs.lookup k) := by
    intro k
    rw [valuesAt_entries]
    cases diffs.lookup k with
    | none => rfl
    | some entry => rfl
  cases hFold : diffs.entries.foldlM (foldNumberChannel mismatch overflow) ∅ with
  | error e =>
    rw [hFold] at hOption
    obtain ⟨k, hk⟩ := foldlM_absorb_eq_none_iff.mp hOption.symm
    rw [hGather] at hk
    cases hk
  | ok copy =>
    rw [hFold] at hOption
    refine ⟨copy, rfl, fun k => ?_⟩
    have hLookup := lookup_foldlM_absorb hOption.symm k
    rw [hGather] at hLookup
    exact (Option.some.inj hLookup).symm

end numbers

namespace EventLogIndex

def combine (x y : EventLogIndex) : Except HistoryError EventLogIndex := combineAll [x, y]

/-- The same index: sets with the same members and maps with the same values. -/
structure SameIndex (x y : EventLogIndex) : Prop where
  producesLinear : ∀ k, k ∈ x.producesLinear.keys ↔ k ∈ y.producesLinear.keys
  producesPersistent : ∀ k, k ∈ x.producesPersistent.keys ↔ k ∈ y.producesPersistent.keys
  producesConsumed : ∀ k, k ∈ x.producesConsumed.keys ↔ k ∈ y.producesConsumed.keys
  producesPeeked : ∀ k, k ∈ x.producesPeeked.keys ↔ k ∈ y.producesPeeked.keys
  producesCopiedByPeek : ∀ k, k ∈ x.producesCopiedByPeek.keys ↔ k ∈ y.producesCopiedByPeek.keys
  producesTouchingBaseJoins : ∀ k, k ∈ x.producesTouchingBaseJoins.keys ↔ k ∈ y.producesTouchingBaseJoins.keys
  consumesLinearAndPeeks : ∀ k, k ∈ x.consumesLinearAndPeeks.keys ↔ k ∈ y.consumesLinearAndPeeks.keys
  consumesPersistent : ∀ k, k ∈ x.consumesPersistent.keys ↔ k ∈ y.consumesPersistent.keys
  consumesProduced : ∀ k, k ∈ x.consumesProduced.keys ↔ k ∈ y.consumesProduced.keys
  producesMergeable : ∀ k, k ∈ x.producesMergeable.keys ↔ k ∈ y.producesMergeable.keys
  consumesMergeable : ∀ k, k ∈ x.consumesMergeable.keys ↔ k ∈ y.consumesMergeable.keys
  numberChannelsData : ∀ k, x.numberChannelsData.lookup k = y.numberChannelsData.lookup k

def SameOutcome (x y : Except HistoryError EventLogIndex) : Prop :=
  match x, y with
  | .ok index, .ok index' => SameIndex index index'
  | .error e, .error e' => e = e'
  | _, _ => False

def Alike (x y : EventLogIndex) : Prop :=
  x = { y with numberChannelsData := x.numberChannelsData } ∧
    ∀ k, x.numberChannelsData.lookup k = y.numberChannelsData.lookup k

theorem Alike.sameIndex {x y : EventLogIndex} (h : Alike x y) : SameIndex x y := by
  obtain ⟨hSets, hNumbers⟩ := h
  constructor
  case numberChannelsData => exact hNumbers
  all_goals
    rw [hSets]
    exact fun k => Iff.rfl

end EventLogIndex

namespace EventLogIndexFold

open EventLogIndex

def absorbing (self : EventLogIndexFold) (other : EventLogIndex) (numbers : NumberChannelsDiff) : EventLogIndexFold where
  index := {
    producesLinear := self.index.producesLinear.append other.producesLinear
    producesPersistent := self.index.producesPersistent.append other.producesPersistent
    producesConsumed := self.index.producesConsumed.append other.producesConsumed
    producesPeeked := self.index.producesPeeked.append other.producesPeeked
    producesCopiedByPeek := self.index.producesCopiedByPeek.append other.producesCopiedByPeek
    producesTouchingBaseJoins := self.index.producesTouchingBaseJoins.append other.producesTouchingBaseJoins
    consumesLinearAndPeeks := self.index.consumesLinearAndPeeks.append other.consumesLinearAndPeeks
    consumesPersistent := self.index.consumesPersistent.append other.consumesPersistent
    consumesProduced := self.index.consumesProduced.append other.consumesProduced
    producesMergeable := self.index.producesMergeable.append other.producesMergeable
    consumesMergeable := self.index.consumesMergeable.append other.consumesMergeable
    numberChannelsData := numbers }
  created := self.created.append other.producesCreated

theorem add_eq_map (self : EventLogIndexFold) (other : EventLogIndex) : self.add other =
    (foldNumberChannels self.index.numberChannelsData other.numberChannelsData).map (self.absorbing other) := by
  rw [add]
  cases foldNumberChannels self.index.numberChannelsData other.numberChannelsData with
  | error e => rfl
  | ok numbers => rfl

def Tracks (self : EventLogIndexFold) : Prop := ∀ k, k ∈ self.finish.producesCreated.keys ↔ k ∈ self.created.keys

theorem mem_keys_producesCreated {e : EventLogIndex} {k : Bytes} : k ∈ e.producesCreated.keys ↔
    (k ∈ e.producesLinear.keys ∨ k ∈ e.producesPersistent.keys) ∧ k ∉ e.producesCopiedByPeek.keys := by
  rw [EventLogIndex.producesCreated, KeyedSet.mem_keys_diff, KeyedSet.mem_keys_union]

theorem tracks_default : Tracks default := fun k => ⟨fun h => (by cases h), fun h => (by cases h)⟩

variable {self : EventLogIndexFold}

theorem Tracks.absorbing (h : self.Tracks) (other : EventLogIndex)
    (numbers : NumberChannelsDiff) : (self.absorbing other numbers).Tracks := by
  intro k
  have hSelf := h k
  have hOther := @mem_keys_producesCreated other k
  simp only [mem_keys_producesCreated, finish, EventLogIndexFold.absorbing, KeyedSet.mem_keys_diff,
    KeyedSet.mem_keys_append] at hSelf hOther ⊢
  tauto

variable {acc : EventLogIndex}

theorem finish_absorbing (h : self.Tracks) (hAcc : Alike acc self.finish)
    (other : EventLogIndex) {copy numbers numbers' : NumberChannelsDiff}
    (hNumbers : ∀ k, numbers'.lookup k = numbers.lookup k) :
    Alike ((default.absorbing acc copy).absorbing other numbers').finish (self.absorbing other numbers).finish := by
  obtain ⟨hSets, -⟩ := hAcc
  refine ⟨?_, hNumbers⟩
  have hCreated : ∀ k, k ∈ acc.producesCreated.keys ↔ k ∈ self.created.keys := by
    intro k
    rw [← h k, hSets]
    rfl
  have hCopied : (acc.producesCopiedByPeek.append other.producesCopiedByPeek).diff
      (acc.producesCreated.append other.producesCreated) =
        (self.index.producesCopiedByPeek.append other.producesCopiedByPeek).diff
          (self.created.append other.producesCreated) := by
    have hEarly : acc.producesCopiedByPeek = self.index.producesCopiedByPeek.diff self.created := by
      rw [hSets]
      rfl
    have hKeys : ∀ k, k ∈ (acc.producesCreated.append other.producesCreated).keys ↔
        k ∈ (self.created.append other.producesCreated).keys := fun k => by
      rw [KeyedSet.mem_keys_append, KeyedSet.mem_keys_append, hCreated]
    rw [KeyedSet.diff_congr hKeys, hEarly, KeyedSet.diff_append_diff]
  have hCopy : ∀ e : EventLogIndex, (default.absorbing e copy) = ⟨{ e with numberChannelsData := copy }, e.producesCreated⟩ := by
    intro e
    simp only [EventLogIndexFold.absorbing, default, EventLogIndex.empty, KeyedSet.empty_append]
  rw [hCopy]
  simp only [EventLogIndexFold.absorbing, finish]
  rw [hCopied, hSets]
  rfl

theorem exists_add_default (acc : EventLogIndex) : ∃ copy, default.add acc = .ok (default.absorbing acc copy) ∧
    ∀ k, copy.lookup k = acc.numberChannelsData.lookup k := by
  obtain ⟨copy, hCopy, hLookup⟩ := @exists_copy HistoryError mergeTypeMismatch _ acc.numberChannelsData
  refine ⟨copy, ?_, hLookup⟩
  rw [add_eq_map, foldNumberChannels, show default.index.numberChannelsData = ∅ from rfl, hCopy]
  rfl

theorem alike_finish_default (acc : EventLogIndex) {copy : NumberChannelsDiff}
    (hLookup : ∀ k, copy.lookup k = acc.numberChannelsData.lookup k) :
    Alike acc (default.absorbing acc copy).finish := by
  refine ⟨?_, fun k => (hLookup k).symm⟩
  -- what a log creates it did not copy
  have hCopied : acc.producesCopiedByPeek.diff acc.producesCreated = acc.producesCopiedByPeek := by
    apply KeyedSet.eq_of_items
    refine List.filter_eq_self.mpr fun a ha => KeyedSet.not_contains_iff.mpr fun hCreated => ?_
    exact (mem_keys_producesCreated.mp hCreated).2 (KeyedSet.mem_keys.mpr ⟨a, ha, rfl⟩)
  simp only [EventLogIndexFold.absorbing, finish, default, EventLogIndex.empty, KeyedSet.empty_append, hCopied]

theorem add_sameStep (h : self.Tracks) (hAcc : Alike acc self.finish)
    (x : EventLogIndex) :
    (∃ self' acc', self.add x = .ok self' ∧ combine acc x = .ok acc' ∧ self'.Tracks ∧ Alike acc' self'.finish) ∨
      ∃ e, self.add x = .error e ∧ combine acc x = .error e := by
  obtain ⟨copy, hCopy, hLookup⟩ := exists_add_default acc
  have hCombine : combine acc x = ((default.absorbing acc copy).add x).map finish := by
    change ([acc, x].foldlM add default).map finish = _
    rw [List.foldlM_cons, hCopy]
    change ([x].foldlM add _).map finish = _
    rw [List.foldlM_cons]
    cases (default.absorbing acc copy).add x with
    | error e => rfl
    | ok self' => rfl
  have hSame : SameDiffs (foldNumberChannels self.index.numberChannelsData x.numberChannelsData)
      (foldNumberChannels copy x.numberChannelsData) :=
    foldlM_foldNumberChannel_congr (fun k => ((hLookup k).trans (hAcc.2 k)).symm) _
  rw [hCombine, add_eq_map, add_eq_map, show (default.absorbing acc copy).index.numberChannelsData = copy from rfl]
  cases hNumbers : foldNumberChannels self.index.numberChannelsData x.numberChannelsData with
  | error e =>
    cases hNumbers' : foldNumberChannels copy x.numberChannelsData with
    | error e' =>
      rw [hNumbers, hNumbers'] at hSame
      obtain rfl : e = e' := hSame
      exact .inr ⟨e, rfl, rfl⟩
    | ok numbers' =>
      rw [hNumbers, hNumbers'] at hSame
      exact hSame.elim
  | ok numbers =>
    cases hNumbers' : foldNumberChannels copy x.numberChannelsData with
    | error e' =>
      rw [hNumbers, hNumbers'] at hSame
      exact hSame.elim
    | ok numbers' =>
      rw [hNumbers, hNumbers'] at hSame
      exact .inl ⟨_, _, rfl, rfl, h.absorbing x numbers, finish_absorbing h hAcc x fun k => (hSame k).symm⟩

theorem foldlM_sameOutcome (h : self.Tracks)
    (hAcc : Alike acc self.finish) (indices : List EventLogIndex) :
    SameOutcome (indices.foldlM combine acc) ((indices.foldlM add self).map finish) := by
  induction indices generalizing self acc with
  | nil => exact hAcc.sameIndex
  | cons x indices ih =>
    rw [List.foldlM_cons, List.foldlM_cons]
    obtain ⟨self', acc', hAdd, hCombine, hTracks, hAlike⟩ | ⟨e, hAdd, hCombine⟩ := add_sameStep h hAcc x
    · rw [hAdd, hCombine]
      exact ih hTracks hAlike
    · rw [hAdd, hCombine]
      exact rfl

theorem mem_keys_foldlM_add {α κ : Type} [DecidableEq κ] {key : α → κ} (field : EventLogIndexFold → KeyedSet key)
    (part : EventLogIndex → KeyedSet key)
    (hField : ∀ self x numbers, field (EventLogIndexFold.absorbing self x numbers) = (field self).append (part x))
    {indices : List EventLogIndex} {self' : EventLogIndexFold} (h : indices.foldlM add self = .ok self') (k : κ) :
    k ∈ (field self').keys ↔ k ∈ (field self).keys ∨ ∃ x ∈ indices, k ∈ (part x).keys := by
  induction indices generalizing self with
  | nil =>
    obtain rfl := Except.ok.inj h
    simp
  | cons x indices ih =>
    rw [List.foldlM_cons] at h
    obtain ⟨next, hNext, hRest⟩ := exists_of_bind_ok h
    rw [add_eq_map] at hNext
    obtain ⟨numbers, -, rfl⟩ := exists_of_map_ok hNext
    rw [ih hRest, hField, KeyedSet.mem_keys_append]
    simp only [List.mem_cons, exists_eq_or_imp, or_assoc]

theorem toOption_foldlM_add (indices : List EventLogIndex) (self : EventLogIndexFold) :
    ((indices.foldlM add self).map fun self' => self'.index.numberChannelsData).toOption =
      (indices.flatMap fun x => x.numberChannelsData.entries).foldlM (absorb combineAlike)
        self.index.numberChannelsData := by
  induction indices generalizing self with
  | nil => rfl
  | cons x indices ih =>
    rw [List.foldlM_cons, List.flatMap_cons, List.foldlM_append, add_eq_map, foldNumberChannels,
      ← @toOption_foldlM_foldNumberChannel HistoryError mergeTypeMismatch]
    cases hNumbers : x.numberChannelsData.entries.foldlM (foldNumberChannel mergeTypeMismatch _)
        self.index.numberChannelsData with
    | error e => rfl
    | ok numbers => exact ih (self.absorbing x numbers)

end EventLogIndexFold

namespace EventLogIndex

open EventLogIndexFold

def diffsAt (k : Bytes) (indices : List EventLogIndex) : List (Int × MergeType) :=
  indices.filterMap fun x => x.numberChannelsData.lookup k

variable {indices : List EventLogIndex} {r : EventLogIndex}

theorem exists_of_combineAll (h : combineAll indices = .ok r) :
    ∃ self, indices.foldlM add default = .ok self ∧ r = self.finish := by
  obtain ⟨self, hSelf, hr⟩ := exists_of_map_ok h
  exact ⟨self, hSelf, hr.symm⟩

theorem gather_diffsAt (h : combineAll indices = .ok r) (k : Bytes) :
    gather combineAlike (diffsAt k indices) = some (r.numberChannelsData.lookup k) := by
  obtain ⟨self, hSelf, rfl⟩ := exists_of_combineAll h
  have hFold := toOption_foldlM_add indices default
  rw [hSelf] at hFold
  rw [diffsAt, ← valuesAt_flatMap]
  exact lookup_foldlM_absorb hFold.symm k

theorem exists_combineAll_of_gather
    (h : ∀ k, gather combineAlike (diffsAt k indices) ≠ none) : ∃ r, combineAll indices = .ok r := by
  have hFold := toOption_foldlM_add indices default
  cases hAdd : indices.foldlM add default with
  | error e =>
    rw [hAdd] at hFold
    obtain ⟨k, hk⟩ := foldlM_absorb_eq_none_iff.mp hFold.symm
    rw [valuesAt_flatMap] at hk
    exact absurd hk (h k)
  | ok self =>
    refine ⟨self.finish, ?_⟩
    rw [combineAll, hAdd]
    rfl

theorem sameIndex_of_perm {indices' : List EventLogIndex} (hPerm : indices.Perm indices') {r' : EventLogIndex}
    (h : combineAll indices = .ok r) (h' : combineAll indices' = .ok r') : SameIndex r r' := by
  have hNumbers : ∀ k, r.numberChannelsData.lookup k = r'.numberChannelsData.lookup k := by
    intro k
    have hDiffs : (diffsAt k indices).Perm (diffsAt k indices') := hPerm.filterMap _
    exact eq_of_gather_perm hDiffs (gather_diffsAt h k) (gather_diffsAt h' k)
  obtain ⟨self, hSelf, rfl⟩ := exists_of_combineAll h
  obtain ⟨self', hSelf', rfl⟩ := exists_of_combineAll h'
  have hField : ∀ {α κ : Type} [DecidableEq κ] {key : α → κ} (field : EventLogIndexFold → KeyedSet key)
      (part : EventLogIndex → KeyedSet key),
      (∀ self x numbers, field (EventLogIndexFold.absorbing self x numbers) = (field self).append (part x)) →
        ∀ k, k ∈ (field self).keys ↔ k ∈ (field self').keys := by
    intro α κ _ key field part hAppend k
    rw [mem_keys_foldlM_add field part hAppend hSelf, mem_keys_foldlM_add field part hAppend hSelf']
    simp only [hPerm.mem_iff]
  have hCopied := hField (fun self => self.index.producesCopiedByPeek) (fun x => x.producesCopiedByPeek)
    fun _ _ _ => rfl
  have hCreated := hField (fun self => self.created) (fun x => x.producesCreated) fun _ _ _ => rfl
  exact {
    producesLinear := hField (fun self => self.index.producesLinear) (fun x => x.producesLinear) fun _ _ _ => rfl
    producesPersistent := hField (fun self => self.index.producesPersistent) (fun x => x.producesPersistent)
      fun _ _ _ => rfl
    producesConsumed := hField (fun self => self.index.producesConsumed) (fun x => x.producesConsumed) fun _ _ _ => rfl
    producesPeeked := hField (fun self => self.index.producesPeeked) (fun x => x.producesPeeked) fun _ _ _ => rfl
    producesCopiedByPeek := fun k => by
      rw [finish, finish, KeyedSet.mem_keys_diff, KeyedSet.mem_keys_diff, hCopied, hCreated]
    producesTouchingBaseJoins := hField (fun self => self.index.producesTouchingBaseJoins)
      (fun x => x.producesTouchingBaseJoins) fun _ _ _ => rfl
    consumesLinearAndPeeks := hField (fun self => self.index.consumesLinearAndPeeks)
      (fun x => x.consumesLinearAndPeeks) fun _ _ _ => rfl
    consumesPersistent := hField (fun self => self.index.consumesPersistent) (fun x => x.consumesPersistent)
      fun _ _ _ => rfl
    consumesProduced := hField (fun self => self.index.consumesProduced) (fun x => x.consumesProduced) fun _ _ _ => rfl
    producesMergeable := hField (fun self => self.index.producesMergeable) (fun x => x.producesMergeable)
      fun _ _ _ => rfl
    consumesMergeable := hField (fun self => self.index.consumesMergeable) (fun x => x.consumesMergeable)
      fun _ _ _ => rfl
    numberChannelsData := hNumbers }

/-- One accumulator does what pairs do, and the order of the logs shows only in whether they combine:
orders that do give the same index, and all orders do if every selection of the logs does. -/
theorem combineAll_eq_pairwise_and_orders :
    (∀ indices, SameOutcome (indices.foldlM combine empty) (combineAll indices)) ∧
    (∀ first indices, SameOutcome (indices.foldlM combine first) (combineAll (first :: indices))) ∧
    (∀ indices indices' r r', indices.Perm indices' → combineAll indices = .ok r → combineAll indices' = .ok r' →
      SameIndex r r') ∧
    ∀ indices, (∀ part : List EventLogIndex, part.Sublist indices → ∃ r, combineAll part = .ok r) → ∀ indices', indices.Perm indices' →
      SameOutcome (combineAll indices) (combineAll indices') := by
  refine ⟨fun indices => ?_, fun first indices => ?_, fun _ _ _ _ hPerm => sameIndex_of_perm hPerm, ?_⟩
  · exact foldlM_sameOutcome tracks_default ⟨rfl, fun k => rfl⟩ indices
  · obtain ⟨copy, hCopy, hLookup⟩ := exists_add_default first
    rw [combineAll, List.foldlM_cons, hCopy]
    exact foldlM_sameOutcome (tracks_default.absorbing first copy) (alike_finish_default first hLookup) indices
  · intro indices hParts indices' hPerm
    obtain ⟨r, hr⟩ := hParts indices (List.Sublist.refl indices)
    obtain ⟨r', hr'⟩ : ∃ r', combineAll indices' = .ok r' := by
      refine exists_combineAll_of_gather fun k => gather_ne_none_of_sublists hPerm fun part hPart => ?_
      obtain ⟨r, hr⟩ := hParts part hPart
      have hGather := gather_diffsAt hr k
      rw [diffsAt] at hGather
      rw [hGather]
      exact Option.some_ne_none _
    rw [hr, hr']
    exact sameIndex_of_perm hPerm hr hr'

def ofDiff (diff : Int) : EventLogIndex := { empty with numberChannelsData := AList.singleton [7] (diff, .integerAdd) }

/-- Three deposits and a withdrawal that combine two by two and in one order, but not with the
withdrawal last. -/
theorem not_order_free_deposits :
    ¬ ∀ indices : List EventLogIndex, (∀ x ∈ indices, ∀ y ∈ indices, ∃ r, combine x y = .ok r) →
      ∀ indices', indices.Perm indices' → SameOutcome (combineAll indices) (combineAll indices') := by
  intro h
  let deposit := ofDiff (2 ^ 254 + 2 ^ 253)
  let withdrawal := ofDiff (-(2 ^ 254 + 2 ^ 253))
  have hPairs : ∀ x ∈ [deposit, deposit, withdrawal, deposit], ∀ y ∈ [deposit, deposit, withdrawal, deposit],
      ∃ r, combine x y = .ok r := by
    intro x hx y hy
    obtain rfl | rfl : x = deposit ∨ x = withdrawal := by simpa [or_comm, or_assoc] using hx
    · obtain rfl | rfl : y = deposit ∨ y = withdrawal := by simpa [or_comm, or_assoc] using hy
      · exact ⟨_, rfl⟩
      · exact ⟨_, rfl⟩
    · obtain rfl | rfl : y = deposit ∨ y = withdrawal := by simpa [or_comm, or_assoc] using hy
      · exact ⟨_, rfl⟩
      · exact ⟨_, rfl⟩
  exact h _ hPairs [deposit, deposit, deposit, withdrawal] (by
    exact .cons _ (.cons _ (.swap _ _ _)))

end EventLogIndex

end F1r3Node.Merging
