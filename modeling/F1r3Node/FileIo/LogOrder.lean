import F1r3Node.FileIo.Wal
import Mathlib.Data.List.Induction
import Mathlib.Data.List.ReduceOption

/-! # Draining the log of a deploy in log order

What a deploy appended is taken out in the order in which the event log of the deploy names the hashes; what the log
does not name follows in the order of insertion.
-/

namespace F1r3Node.FileIo

open Shared

structure WalInner where
  entries : List WalEntry
  ackHashes : List Bytes
  aligned : entries.length = ackHashes.length

namespace WalInner

def appendWithAck (wal : WalInner) (entry : WalEntry) (ackHash : Bytes) : Option WalInner :=
  if maxWalEntries ≤ wal.entries.length then none
  else some ⟨wal.entries ++ [entry], wal.ackHashes ++ [ackHash], by simp [wal.aligned]⟩

def beginDeploy (wal : WalInner) : Nat := wal.entries.length

def truncateTo (wal : WalInner) (mark : Nat) : WalInner :=
  ⟨wal.entries.take mark, wal.ackHashes.take mark, by simp [wal.aligned]⟩

end WalInner

def indexByAck (acks : List Bytes) : AList fun _ : Bytes => Nat :=
  acks.zipIdx.foldl (fun index slot => if slot.1 ∈ index then index else index.insert slot.1 slot.2) ∅

def takeMatched (index : AList fun _ : Bytes => Nat) (state : List (Option WalEntry) × List WalEntry) (hash : Bytes) :
    List (Option WalEntry) × List WalEntry :=
  match index.lookup hash with
  | none => state
  | some i =>
    match (state.1[i]?).join with
    | none => state
    | some entry => (state.1.set i none, state.2 ++ [entry])

def takeDeployEntriesInLogOrder (wal : WalInner) (mark : Nat) (produceChannelHashes : List Bytes) :
    WalInner × List WalEntry :=
  if wal.entries.length ≤ mark then (wal, [])
  else
    let index := indexByAck (wal.ackHashes.drop mark)
    let (matched, ordered) := produceChannelHashes.foldl (takeMatched index) ((wal.entries.drop mark).map some, [])
    (wal.truncateTo mark, ordered ++ matched.reduceOption)

variable {i : Nat}

theorem perm_reduceOption_set {slots : List (Option WalEntry)} {entry : WalEntry}
    (h : slots[i]? = some (some entry)) : (entry :: (slots.set i none).reduceOption).Perm slots.reduceOption := by
  induction slots generalizing i with
  | nil => cases h
  | cons slot slots ih =>
    cases i with
    | zero =>
      obtain rfl : slot = some entry := by simpa using h
      rw [List.set_cons_zero, List.reduceOption_cons_of_none, List.reduceOption_cons_of_some]
    | succ i =>
      have hTail := ih (i := i) (by simpa using h)
      rw [List.set_cons_succ]
      cases slot with
      | none => simpa only [List.reduceOption_cons_of_none] using hTail
      | some first =>
        rw [List.reduceOption_cons_of_some, List.reduceOption_cons_of_some]
        exact (List.Perm.swap first entry _).trans (hTail.cons first)

def held (state : List (Option WalEntry) × List WalEntry) : List WalEntry := state.2 ++ state.1.reduceOption

theorem held_takeMatched (index : AList fun _ : Bytes => Nat) (state : List (Option WalEntry) × List WalEntry)
    (hash : Bytes) : (held (takeMatched index state hash)).Perm (held state) := by
  rw [takeMatched]
  split
  · exact .refl _
  · next i _ =>
    split
    · exact .refl _
    · next entry hEntry =>
      have hSlot : state.1[i]? = some (some entry) := Option.join_eq_some_iff.mp hEntry
      rw [held, held, List.append_assoc]
      exact (perm_reduceOption_set hSlot).append_left state.2

theorem held_foldl (index : AList fun _ : Bytes => Nat) (log : List Bytes)
    (state : List (Option WalEntry) × List WalEntry) : (held (log.foldl (takeMatched index) state)).Perm (held state) := by
  induction log generalizing state with
  | nil => exact .refl _
  | cons hash log ih => exact (ih _).trans (held_takeMatched index state hash)

theorem reduceOption_map_some (entries : List WalEntry) : (entries.map some).reduceOption = entries := by
  induction entries with
  | nil => rfl
  | cons entry entries ih => rw [List.map_cons, List.reduceOption_cons_of_some, ih]

theorem perm_takeDeployEntries (wal : WalInner) (mark : Nat) (log : List Bytes) :
    (takeDeployEntriesInLogOrder wal mark log).2.Perm (wal.entries.drop mark) := by
  rw [takeDeployEntriesInLogOrder]
  split
  · next hShort => rw [List.drop_eq_nil_of_le hShort]
  · have hHeld := held_foldl (indexByAck (wal.ackHashes.drop mark)) log ((wal.entries.drop mark).map some, [])
    rwa [held, held, reduceOption_map_some, List.nil_append] at hHeld

theorem entries_takeDeployEntries (wal : WalInner) (mark : Nat) (log : List Bytes) :
    (takeDeployEntriesInLogOrder wal mark log).1.entries = wal.entries.take mark ∧
      (takeDeployEntriesInLogOrder wal mark log).1.ackHashes = wal.ackHashes.take mark := by
  rw [takeDeployEntriesInLogOrder]
  split
  · next hShort =>
    exact ⟨(List.take_of_length_le hShort).symm, (List.take_of_length_le (wal.aligned ▸ hShort)).symm⟩
  · exact ⟨rfl, rfl⟩

/-- What the walk over the log gives out, from the entries that wait under their hashes. -/
def emitted (waiting : Bytes → Option WalEntry) : List Bytes → List WalEntry
  | [] => []
  | hash :: log => (waiting hash).toList ++ emitted (Function.update waiting hash none) log

def waitingIn (index : AList fun _ : Bytes => Nat) (slots : List (Option WalEntry)) (hash : Bytes) : Option WalEntry :=
  (index.lookup hash).bind fun i => (slots[i]?).join

def PlacesDiffer (index : AList fun _ : Bytes => Nat) : Prop :=
  ∀ a b i, index.lookup a = some i → index.lookup b = some i → a = b

section walk

variable {index : AList fun _ : Bytes => Nat}

theorem snd_takeMatched (state : List (Option WalEntry) × List WalEntry) (hash : Bytes) :
    (takeMatched index state hash).2 = state.2 ++ (waitingIn index state.1 hash).toList := by
  rw [takeMatched, waitingIn]
  cases index.lookup hash with
  | none => simp
  | some i =>
    simp only [Option.bind_some]
    cases (state.1[i]?).join with
    | none => simp
    | some entry => simp

theorem waitingIn_set (hPlaces : PlacesDiffer index) {slots : List (Option WalEntry)} {hash : Bytes} {i : Nat}
    (hIndex : index.lookup hash = some i) :
    waitingIn index (slots.set i none) = Function.update (waitingIn index slots) hash none := by
  funext other
  by_cases hEq : other = hash
  · subst hEq
    rw [Function.update_self, waitingIn, hIndex, Option.bind_some, List.getElem?_set_self']
    cases slots[i]? <;> rfl
  · rw [Function.update_of_ne hEq, waitingIn, waitingIn]
    cases hOther : index.lookup other with
    | none => rfl
    | some j =>
      have hNe : i ≠ j := fun h => hEq (hPlaces other hash j hOther (h ▸ hIndex))
      rw [Option.bind_some, Option.bind_some, List.getElem?_set_ne hNe]

theorem waitingIn_takeMatched (hPlaces : PlacesDiffer index) (state : List (Option WalEntry) × List WalEntry)
    (hash : Bytes) :
    waitingIn index (takeMatched index state hash).1 = Function.update (waitingIn index state.1) hash none := by
  have hNothing : waitingIn index state.1 hash = none →
      waitingIn index state.1 = Function.update (waitingIn index state.1) hash none := by
    intro hNone
    rw [← hNone, Function.update_eq_self]
  rw [takeMatched]
  cases hIndex : index.lookup hash with
  | none =>
    apply hNothing
    rw [waitingIn, hIndex]
    rfl
  | some i =>
    dsimp only
    split
    · next hNone =>
      apply hNothing
      rw [waitingIn, hIndex, Option.bind_some, hNone]
    · exact waitingIn_set hPlaces hIndex

theorem snd_foldl_takeMatched (hPlaces : PlacesDiffer index) (log : List Bytes)
    (state : List (Option WalEntry) × List WalEntry) :
    (log.foldl (takeMatched index) state).2 = state.2 ++ emitted (waitingIn index state.1) log := by
  induction log generalizing state with
  | nil => simp [emitted]
  | cons hash log ih =>
    rw [List.foldl_cons, ih, snd_takeMatched, waitingIn_takeMatched hPlaces, emitted, List.append_assoc]

theorem waitingIn_foldl_takeMatched (hPlaces : PlacesDiffer index) (log : List Bytes)
    (state : List (Option WalEntry) × List WalEntry) {hash : Bytes}
    (h : hash ∈ log ∨ waitingIn index state.1 hash = none) :
    waitingIn index (log.foldl (takeMatched index) state).1 hash = none := by
  induction log generalizing state with
  | nil => exact h.resolve_left List.not_mem_nil
  | cons first log ih =>
    apply ih
    rw [waitingIn_takeMatched hPlaces]
    rcases eq_or_ne hash first with rfl | hNe
    · exact .inr (Function.update_self ..)
    · rw [Function.update_of_ne hNe]
      exact h.imp_left fun hMem => (List.mem_cons.mp hMem).resolve_left hNe

theorem length_foldl_takeMatched (log : List Bytes) (state : List (Option WalEntry) × List WalEntry) :
    (log.foldl (takeMatched index) state).1.length = state.1.length := by
  induction log generalizing state with
  | nil => rfl
  | cons hash log ih =>
    rw [List.foldl_cons, ih, takeMatched]
    split
    · rfl
    · split
      · rfl
      · exact List.length_set

end walk

theorem indexByAck_concat (acks : List Bytes) (ack : Bytes) :
    indexByAck (acks ++ [ack]) =
      if ack ∈ indexByAck acks then indexByAck acks else (indexByAck acks).insert ack acks.length := by
  rw [indexByAck, List.zipIdx_append, List.foldl_append, ← indexByAck]
  simp

variable {acks : List Bytes} {hash : Bytes}

theorem mem_indexByAck (h : hash ∈ acks) : hash ∈ indexByAck acks := by
  induction acks using List.reverseRecOn with
  | nil => cases h
  | append_singleton acks ack ih =>
    rw [indexByAck_concat]
    rcases List.mem_append.mp h with hOld | hNew
    · split
      · exact ih hOld
      · exact (AList.mem_insert _).mpr (.inr (ih hOld))
    · obtain rfl := List.mem_singleton.mp hNew
      split
      · assumption
      · exact (AList.mem_insert _).mpr (.inl rfl)

theorem getElem?_of_lookup_indexByAck (h : (indexByAck acks).lookup hash = some i) : acks[i]? = some hash := by
  induction acks using List.reverseRecOn with
  | nil => cases h
  | append_singleton acks ack ih =>
    have hOld : (indexByAck acks).lookup hash = some i → (acks ++ [ack])[i]? = some hash := by
      intro hLookup
      obtain ⟨hBound, hEq⟩ := List.getElem?_eq_some_iff.mp (ih hLookup)
      rw [List.getElem?_append_left hBound, ih hLookup]
    rw [indexByAck_concat] at h
    split at h
    · exact hOld h
    · rcases eq_or_ne hash ack with rfl | hNe
      · rw [AList.lookup_insert] at h
        rw [← Option.some.inj h, List.getElem?_concat_length]
      · rw [AList.lookup_insert_ne hNe] at h
        exact hOld h

theorem placesDiffer_indexByAck (acks : List Bytes) : PlacesDiffer (indexByAck acks) := by
  intro a b i ha hb
  exact Option.some.inj ((getElem?_of_lookup_indexByAck ha).symm.trans (getElem?_of_lookup_indexByAck hb))

theorem lookup_indexByAck (hNodup : acks.Nodup) :
    (indexByAck acks).lookup hash = some i ↔ acks[i]? = some hash := by
  refine ⟨getElem?_of_lookup_indexByAck, fun hAt => ?_⟩
  obtain ⟨j, hIndex⟩ := Option.isSome_iff_exists.mp
    (AList.lookup_isSome.mpr (mem_indexByAck (List.mem_of_getElem? hAt)))
  obtain ⟨hBound, -⟩ := List.getElem?_eq_some_iff.mp hAt
  rw [hIndex, (List.getElem?_inj hBound hNodup).mp (hAt.trans (getElem?_of_lookup_indexByAck hIndex).symm)]

section slots

variable {slots : List (WalEntry × Bytes)} (hNodup : (slots.map Prod.snd).Nodup)

include hNodup

theorem waitingIn_indexByAck {entry : WalEntry} {hash : Bytes} :
    waitingIn (indexByAck (slots.map Prod.snd)) ((slots.map Prod.fst).map some) hash = some entry ↔
      (entry, hash) ∈ slots := by
  have hPlace : ∀ i : Nat, (slots.map Prod.snd)[i]? = some hash ∧
      (((slots.map Prod.fst).map some)[i]?).join = some entry ↔ slots[i]? = some (entry, hash) := by
    intro i
    rw [Option.join_eq_some_iff, List.getElem?_map, List.getElem?_map, List.getElem?_map]
    cases slots[i]? with
    | none => simp
    | some slot => simp [Prod.ext_iff, and_comm]
  simp only [waitingIn, Option.bind_eq_some_iff, lookup_indexByAck hNodup, hPlace, List.mem_iff_getElem?]

theorem reduceOption_eq_nil {log : List Bytes} (hLog : ∀ slot ∈ slots, slot.2 ∈ log)
    (state : List (Option WalEntry) × List WalEntry) (hLength : state.1.length = slots.length) :
    (log.foldl (takeMatched (indexByAck (slots.map Prod.snd))) state).1.reduceOption = [] := by
  rw [List.reduceOption, List.filterMap_eq_nil_iff]
  intro slot hSlot
  obtain ⟨i, hAt⟩ := List.mem_iff_getElem?.mp hSlot
  obtain ⟨hBound, -⟩ := List.getElem?_eq_some_iff.mp hAt
  rw [length_foldl_takeMatched, hLength] at hBound
  have hHash : (slots.map Prod.snd)[i]? = some slots[i].2 := by
    rw [List.getElem?_map, List.getElem?_eq_getElem hBound]
    rfl
  have hNone := waitingIn_foldl_takeMatched (placesDiffer_indexByAck (slots.map Prod.snd)) log state
    (.inl (hLog _ (List.getElem_mem hBound)))
  rw [waitingIn, (lookup_indexByAck hNodup).mpr hHash, Option.bind_some, hAt] at hNone
  exact hNone

end slots

theorem emitted_none (log : List Bytes) : emitted (fun _ => none) log = [] := by
  induction log with
  | nil => rfl
  | cons hash log ih =>
    have hSame : Function.update (fun _ : Bytes => (none : Option WalEntry)) hash none = fun _ => none :=
      Function.update_eq_self hash _
    rw [emitted, hSame, ih]
    rfl

def appendAll (wal : WalInner) (slots : List (WalEntry × Bytes)) : Option WalInner :=
  slots.foldlM (fun wal slot => wal.appendWithAck slot.1 slot.2) wal

variable {wal : WalInner}

theorem appendAll_eq_some {after : WalInner} {slots : List (WalEntry × Bytes)} (h : appendAll wal slots = some after) :
    (slots = [] ∨ wal.entries.length + slots.length ≤ maxWalEntries) ∧
      after.entries = wal.entries ++ slots.map Prod.fst ∧ after.ackHashes = wal.ackHashes ++ slots.map Prod.snd := by
  induction slots generalizing wal with
  | nil =>
    obtain rfl := Option.some.inj h
    simp
  | cons slot slots ih =>
    rw [appendAll, List.foldlM_cons] at h
    obtain ⟨next, hNext, hRest⟩ := Option.bind_eq_some_iff.mp h
    rw [WalInner.appendWithAck] at hNext
    split at hNext
    · cases hNext
    next hRoom =>
      obtain rfl := Option.some.inj hNext
      obtain ⟨hFits, hEntries, hHashes⟩ := ih hRest
      refine ⟨.inr ?_, by simp [hEntries], by simp [hHashes]⟩
      rcases hFits with rfl | hFits
      · simp only [List.length_cons, List.length_nil]
        omega
      · simp only [List.length_append, List.length_cons, List.length_nil] at hFits ⊢
        omega

theorem exists_appendAll {slots : List (WalEntry × Bytes)}
    (h : slots = [] ∨ wal.entries.length + slots.length ≤ maxWalEntries) : ∃ after, appendAll wal slots = some after := by
  induction slots generalizing wal with
  | nil => exact ⟨wal, rfl⟩
  | cons slot slots ih =>
    have hFits := h.resolve_left (List.cons_ne_nil _ _)
    rw [List.length_cons] at hFits
    obtain ⟨after, hAfter⟩ := @ih ⟨wal.entries ++ [slot.1], wal.ackHashes ++ [slot.2], by simp [wal.aligned]⟩ (by
      simp only [List.length_append, List.length_cons, List.length_nil]
      omega)
    refine ⟨after, ?_⟩
    rw [appendAll, List.foldlM_cons, WalInner.appendWithAck, if_neg (by omega)]
    exact hAfter

theorem takeDeployEntries_appended {after : WalInner} {slots : List (WalEntry × Bytes)} {log : List Bytes}
    (h : appendAll wal slots = some after) (hNodup : (slots.map Prod.snd).Nodup) (hLog : ∀ slot ∈ slots, slot.2 ∈ log) :
    (takeDeployEntriesInLogOrder after wal.beginDeploy log).2 =
      emitted (waitingIn (indexByAck (slots.map Prod.snd)) ((slots.map Prod.fst).map some)) log := by
  obtain ⟨-, hEntries, hHashes⟩ := appendAll_eq_some h
  have hDrained : after.entries.drop wal.beginDeploy = slots.map Prod.fst := by
    rw [hEntries, WalInner.beginDeploy, List.drop_left]
  have hAcks : after.ackHashes.drop wal.beginDeploy = slots.map Prod.snd := by
    rw [hHashes, WalInner.beginDeploy, wal.aligned, List.drop_left]
  rw [takeDeployEntriesInLogOrder]
  split
  · next hShort =>
    rw [hEntries, List.length_append, List.length_map, WalInner.beginDeploy] at hShort
    obtain rfl : slots = [] := List.eq_nil_of_length_eq_zero (by omega)
    exact (emitted_none log).symm
  · rw [hDrained, hAcks]
    change _ ++ _ = _
    rw [reduceOption_eq_nil hNodup hLog _ (by simp), snd_foldl_takeMatched (placesDiffer_indexByAck _), List.append_nil,
      List.nil_append]

/-- A drain gives out what was appended after the mark. Where the hashes differ and are all in the log, it does not show
the order in which the entries were appended. -/
theorem takeDeployEntriesInLogOrder_schedule_free :
    (∀ (wal : WalInner) (mark : Nat) (log : List Bytes),
      (takeDeployEntriesInLogOrder wal mark log).2.Perm (wal.entries.drop mark) ∧
        (takeDeployEntriesInLogOrder wal mark log).1.entries = wal.entries.take mark ∧
        (takeDeployEntriesInLogOrder wal mark log).1.ackHashes = wal.ackHashes.take mark) ∧
    ∀ (wal after : WalInner) (slots slots' : List (WalEntry × Bytes)) (log : List Bytes), slots.Perm slots' →
      (slots.map Prod.snd).Nodup → (∀ slot ∈ slots, slot.2 ∈ log) → appendAll wal slots = some after →
      ∃ after', appendAll wal slots' = some after' ∧
        (takeDeployEntriesInLogOrder after' wal.beginDeploy log).2 =
          (takeDeployEntriesInLogOrder after wal.beginDeploy log).2 := by
  refine ⟨fun wal mark log => ⟨perm_takeDeployEntries wal mark log, entries_takeDeployEntries wal mark log⟩, ?_⟩
  intro wal after slots slots' log hPerm hNodup hLog hAfter
  have hNodup' : (slots'.map Prod.snd).Nodup := (hPerm.map Prod.snd).nodup_iff.mp hNodup
  have hLog' : ∀ slot ∈ slots', slot.2 ∈ log := fun slot hSlot => hLog slot (hPerm.mem_iff.mpr hSlot)
  obtain ⟨after', hAfter'⟩ : ∃ after', appendAll wal slots' = some after' := by
    apply exists_appendAll
    rw [← hPerm.length_eq]
    refine (appendAll_eq_some hAfter).1.imp_left ?_
    rintro rfl
    exact hPerm.nil_eq.symm
  refine ⟨after', hAfter', ?_⟩
  rw [takeDeployEntries_appended hAfter hNodup hLog, takeDeployEntries_appended hAfter' hNodup' hLog']
  congr 1
  funext hash
  apply Option.ext
  intro entry
  rw [waitingIn_indexByAck hNodup, waitingIn_indexByAck hNodup', hPerm.mem_iff]

def twoCalls : List (WalEntry × Bytes) :=
  [(⟨.read, ⟨true, [[97]]⟩, none, none, none, none, none, none, none, .success⟩, [1]),
    (⟨.write, ⟨true, [[98]]⟩, none, none, none, none, none, none, none, .success⟩, [2])]

theorem twoCalls_schedule_free : ∃ after after', appendAll ⟨[], [], rfl⟩ twoCalls = some after ∧
    appendAll ⟨[], [], rfl⟩ twoCalls.reverse = some after' ∧ after.entries ≠ after'.entries ∧
    (takeDeployEntriesInLogOrder after' 0 [[2], [3], [1]]).2 = (takeDeployEntriesInLogOrder after 0 [[2], [3], [1]]).2 := by
  obtain ⟨after, hAfter⟩ : ∃ after, appendAll ⟨[], [], rfl⟩ twoCalls = some after :=
    exists_appendAll (.inr (by decide))
  obtain ⟨after', hAfter', hSame⟩ := takeDeployEntriesInLogOrder_schedule_free.2 ⟨[], [], rfl⟩ after twoCalls
    twoCalls.reverse [[2], [3], [1]] (List.reverse_perm twoCalls).symm (by decide) (by decide) hAfter
  refine ⟨after, after', hAfter, hAfter', ?_, hSame⟩
  rw [(appendAll_eq_some hAfter).2.1, (appendAll_eq_some hAfter').2.1]
  decide

end F1r3Node.FileIo
