import F1r3Node.Space.ReplayTrace

/-! # The index of the recorded COMMs

The index has only the hash to go by, so a consume also comes by the COMMs of any other consume that is recorded with
this hash.
-/

namespace F1r3Node.Space.ReplayRSpace

open Shared Lib RSpace

variable {C P A K : Type} [DecidableEq C]

/-- The index holds a COMM, under the hash of its consume and each hash of a produce, as often as it is
bound to its consume, times the number of its produces with this hash. -/
structure Synced (replayData : MultisetMultiMap IOEvent COMM) (index : ConsumeReplayIndex) : Prop where
  grouped : ∀ h ph, ∀ comm ∈ index h ph, comm.consume.hash = h
  counted : ∀ (comm : COMM) ph, (index comm.consume.hash ph).countP (· == comm) =
    replayData.count (.consume comm.consume) comm * (comm.produces.map Produce.hash).count ph
  keyed : ∀ c (comm : COMM), 0 < replayData.count (.consume c) comm → comm.consume = c

def ConsumesLogged (log : Log) : Prop :=
  ∀ comm, .comm comm ∈ log → .ioEvent (.consume comm.consume) ∈ log

theorem produce_beq_consume (p : Produce) (c : Consume) : (IOEvent.produce p == .consume c) = false :=
  decide_eq_false nofun

theorem consume_beq_consume (c c' : Consume) : (IOEvent.consume c == .consume c') = decide (c = c') := by
  apply Bool.eq_iff_iff.mpr
  rw [IOEvent.beq_iff, decide_eq_true_iff]
  exact Sum.inr_injective.eq_iff

theorem consume_eq_of_beq {comm c : COMM} (h : (comm == c) = true) : comm.consume = c.consume :=
  congrArg Prod.fst ((COMM.beq_iff comm c).mp h)

theorem hashes_eq_of_beq {comm c : COMM} (h : (comm == c) = true) :
    comm.produces.map Produce.hash = c.produces.map Produce.hash :=
  congrArg (fun identity => identity.2.1) ((COMM.beq_iff comm c).mp h)

theorem same_consume_iff (comm c : COMM) :
    (IOEvent.consume comm.consume == .consume c.consume && comm == c) = (comm == c) := by
  cases hSame : comm == c with
  | false => exact Bool.and_false _
  | true => rw [consume_eq_of_beq hSame, beq_self_eq_true, Bool.true_and]

theorem count_hash_cons (p : Produce) (ps : List Produce) (ph : Bytes) :
    ((p :: ps).map Produce.hash).count ph = [p.hash].count ph + (ps.map Produce.hash).count ph := by
  rw [List.map_cons, ← List.count_append, List.singleton_append]

section

variable (index : ConsumeReplayIndex) (comm c : COMM)

include index comm c

theorem countP_addToIndex (p : Produce) (ph : Bytes) :
    (addToIndex index comm p c.consume.hash ph).countP (· == c) =
      (index c.consume.hash ph).countP (· == c) + if comm == c then [p.hash].count ph else 0 := by
  rw [addToIndex]
  by_cases hConsume : c.consume.hash = comm.consume.hash
  · rw [hConsume, Function.update_self]
    by_cases hProduce : ph = p.hash
    · rw [hProduce, Function.update_self, List.countP_append, List.countP_singleton, List.count_singleton_self]
    · rw [Function.update_of_ne hProduce, List.count_singleton]
      simp [Ne.symm hProduce]
  · have hOther : ¬ (comm == c) = true := fun hSame => hConsume (by rw [consume_eq_of_beq hSame])
    rw [Function.update_of_ne hConsume, if_neg hOther, Nat.add_zero]

theorem countP_foldl_addToIndex (ps : List Produce) (ph : Bytes) :
    (ps.foldl (fun index p => addToIndex index comm p) index c.consume.hash ph).countP (· == c) =
      (index c.consume.hash ph).countP (· == c) + if comm == c then (ps.map Produce.hash).count ph else 0 := by
  induction ps generalizing index with
  | nil => simp
  | cons p ps ih =>
    rw [List.foldl_cons, ih, countP_addToIndex, count_hash_cons]
    split_ifs <;> omega

theorem countP_removeFromIndex (p : Produce) (ph : Bytes) :
    (removeFromIndex index comm p c.consume.hash ph).countP (· == c) =
      (index c.consume.hash ph).countP (· == c) - if comm == c then [p.hash].count ph else 0 := by
  rw [removeFromIndex]
  by_cases hConsume : c.consume.hash = comm.consume.hash
  · rw [hConsume, Function.update_self]
    by_cases hProduce : ph = p.hash
    · rw [hProduce, Function.update_self, countP_beq_eraseP, List.count_singleton_self]
    · rw [Function.update_of_ne hProduce, List.count_singleton]
      simp [Ne.symm hProduce]
  · have hOther : ¬ (comm == c) = true := fun hSame => hConsume (by rw [consume_eq_of_beq hSame])
    rw [Function.update_of_ne hConsume, if_neg hOther, Nat.sub_zero]

theorem countP_foldl_removeFromIndex (ps : List Produce) (ph : Bytes) :
    (ps.foldl (fun index p => removeFromIndex index comm p) index c.consume.hash ph).countP (· == c) =
      (index c.consume.hash ph).countP (· == c) - if comm == c then (ps.map Produce.hash).count ph else 0 := by
  induction ps generalizing index with
  | nil => simp
  | cons p ps ih =>
    rw [List.foldl_cons, ih, countP_removeFromIndex, count_hash_cons]
    split_ifs <;> omega

end

theorem count_foldl_produces {f : MultisetMultiMap IOEvent COMM → IOEvent → MultisetMultiMap IOEvent COMM}
    {c : Consume} {v : COMM} (hf : ∀ m p, (f m (.produce p)).count (.consume c) v = m.count (.consume c) v)
    (ps : List Produce) (m : MultisetMultiMap IOEvent COMM) :
    ((ps.map IOEvent.produce).foldl f m).count (.consume c) v = m.count (.consume c) v := by
  induction ps generalizing m with
  | nil => rfl
  | cons p ps ih => rw [List.map_cons, List.foldl_cons, ih, hf]

theorem count_foldl_events {newStuff : List IOEvent} (m : MultisetMultiMap IOEvent COMM) {comm : COMM}
    (hLogged : newStuff.any (· == .consume comm.consume) = true) (c : Consume) (v : COMM) :
    (comm.ioEvents.foldl (fun m e => if newStuff.any (· == e) then m.addBinding e comm else m) m).count (.consume c) v =
      m.count (.consume c) v + if IOEvent.consume comm.consume == .consume c && comm == v then 1 else 0 := by
  rw [COMM.ioEvents, List.foldl_cons, if_pos hLogged, count_foldl_produces, MultisetMultiMap.count_addBinding]
  intro m p
  split
  · rw [MultisetMultiMap.count_addBinding, produce_beq_consume]
    rfl
  · rfl

theorem count_removeBindings (m : MultisetMultiMap IOEvent COMM) (comm : COMM) (c : Consume) (v : COMM) :
    (removeBindings m comm).count (.consume c) v =
      m.count (.consume c) v - if IOEvent.consume comm.consume == .consume c && comm == v then 1 else 0 := by
  rw [removeBindings, COMM.ioEvents, List.foldl_cons, count_foldl_produces, MultisetMultiMap.count_removeBindingInPlace]
  intro m p
  rw [MultisetMultiMap.count_removeBindingInPlace, produce_beq_consume]
  rfl

theorem Synced.empty : Synced .empty fun _ _ => [] where
  grouped := nofun
  counted _ _ := (Nat.zero_mul _).symm
  keyed _ _ h := absurd h (Nat.lt_irrefl 0)

section

variable {replayData : MultisetMultiMap IOEvent COMM} {index : ConsumeReplayIndex}

theorem Synced.add (h : Synced replayData index) {newStuff : List IOEvent} {comm : COMM}
    (hLogged : newStuff.any (· == .consume comm.consume) = true) :
    Synced (comm.ioEvents.foldl (fun m e => if newStuff.any (· == e) then m.addBinding e comm else m) replayData)
      (comm.produces.foldl (fun index p => addToIndex index comm p) index) where
  grouped hash ph c hMem := by
    obtain hOld | ⟨rfl, hHash, -⟩ := mem_foldl_addToIndex.mp hMem
    · exact h.grouped hash ph c hOld
    · exact hHash
  counted c ph := by
    rw [countP_foldl_addToIndex, h.counted, count_foldl_events replayData hLogged, same_consume_iff]
    cases hSame : comm == c with
    | false => rfl
    | true =>
      rw [if_pos rfl, if_pos rfl, hashes_eq_of_beq hSame, Nat.add_mul, Nat.one_mul]
  keyed c v hPos := by
    rw [count_foldl_events replayData hLogged] at hPos
    split_ifs at hPos with hSame
    · obtain ⟨hConsume, hComm⟩ := (Bool.and_eq_true _ _).mp hSame
      rw [consume_beq_consume, decide_eq_true_iff] at hConsume
      rw [← hConsume, consume_eq_of_beq hComm]
    · exact h.keyed c v hPos

theorem Synced.remove (h : Synced replayData index) (comm : COMM) :
    Synced (removeBindings replayData comm) (comm.produces.foldl (fun index p => removeFromIndex index comm p) index) where
  grouped hash ph c hMem := h.grouped hash ph c (mem_of_removeFromIndex hMem)
  counted c ph := by
    rw [countP_foldl_removeFromIndex, h.counted, count_removeBindings, same_consume_iff]
    cases hSame : comm == c with
    | false => rfl
    | true => rw [if_pos rfl, if_pos rfl, hashes_eq_of_beq hSame, Nat.sub_mul, Nat.one_mul]
  keyed c v hPos := by
    rw [count_removeBindings] at hPos
    exact h.keyed c v (by omega)

theorem synced_rig {log : Log} (hLogged : ConsumesLogged log) : Synced (rigReplayData log) (rigIndex log) := by
  have hFold : ∀ (comms : List COMM) (m : MultisetMultiMap IOEvent COMM) (index : ConsumeReplayIndex),
      (∀ comm ∈ comms, (log.filterMap Event.ioEvent?).any (· == .consume comm.consume) = true) → Synced m index →
      Synced (comms.foldl (fun m comm => comm.ioEvents.foldl (fun m e =>
          if (log.filterMap Event.ioEvent?).any (· == e) then m.addBinding e comm else m) m) m)
        (comms.foldl (fun index comm => comm.produces.foldl (fun index p => addToIndex index comm p) index) index) := by
    intro comms
    induction comms with
    | nil => exact fun m index _ h => h
    | cons comm comms ih =>
      intro m index hComms h
      obtain ⟨hComm, hRest⟩ := List.forall_mem_cons.mp hComms
      exact ih _ _ hRest (h.add hComm)
  refine hFold _ _ _ (fun comm hMem => ?_) Synced.empty
  rw [List.any_eq_true]
  exact ⟨.consume comm.consume, List.mem_filterMap.mpr ⟨_, hLogged comm (mem_filterMap_comm.mp hMem), rfl⟩,
    beq_self_eq_true _⟩

end

def consumeFrom [DecidableEq P] [DecidableEq K] (env : SpaceEnv C P A K) (st : ReplayRSpace C P A K) (channels : List C)
    (wk : WaitingContinuation P K) (recorded : Option (List COMM)) :
    Except Panic (MaybeConsumeResult C P A K × ReplayRSpace C P A K) :=
  let filled := { st with store := st.store.fillData channels }
  match recorded with
  | none => filled.storeConsume channels wk
  | some comms => do
    match ← getCommOrCandidate comms (st.runMatcherConsume env (channels.zip wk.patterns)) with
    | none => filled.storeConsume channels wk
    | some (_, cands) => filled.finishConsume channels wk comms cands

/-- The consume without index and shortcut: all COMMs that are bound to it are scanned. -/
def scanConsume [DecidableEq P] [DecidableEq K] (env : SpaceEnv C P A K) (ord : HashOrder) (st : ReplayRSpace C P A K)
    (channels : List C) (patterns : List P) (continuation : K) (persist : Bool) (peeks : Finset Int)
    (consumeRef : Consume) : Except Panic (MaybeConsumeResult C P A K × ReplayRSpace C P A K) :=
  st.consumeFrom env channels ⟨patterns, continuation, persist, peeks, consumeRef⟩
    ((st.replayData.get? (.consume consumeRef)).map ord.comms)

/-- The call has found data for a recorded COMM. Whether the COMM that results is recorded is asserted
after that. -/
def Fires : Except Panic (MaybeConsumeResult C P A K × ReplayRSpace C P A K) → Prop
  | .ok (result, _) => result.isSome = true
  | .error panic => ∃ comm comms, panic = .commNotInTrace comm comms

def SameOutcome (r r' : Except Panic (MaybeConsumeResult C P A K × ReplayRSpace C P A K)) : Prop :=
  r = r' ∨ (∃ panic, r = .error panic) ∧ ∃ panic, r' = .error panic

section consume

variable {env : SpaceEnv C P A K} {ord : HashOrder} {st : ReplayRSpace C P A K} {channels : List C} {patterns : List P}
  {comm comm' : COMM} {cands : List (ConsumeCandidate C A)}

omit [DecidableEq C] in
theorem takesPart_congr (h : (comm == comm') = true) (counter : Bytes → Int) (source : Produce) (persist : Bool) :
    takesPart comm counter source persist = takesPart comm' counter source persist := by
  have hAny : ∀ c : COMM, c.produces.any (fun p => decide (p.hash = source.hash)) =
      (c.produces.map Produce.hash).any fun hash => decide (hash = source.hash) := fun c => by
    rw [List.any_map]
    rfl
  have hTimes : comm.timesRepeated = comm'.timesRepeated :=
    congrArg (fun identity => identity.2.2.2) ((COMM.beq_iff comm comm').mp h)
  rw [takesPart, takesPart, hAny, hAny, hashes_eq_of_beq h, hTimes]

theorem runMatcherConsume_congr (h : (comm == comm') = true) (pairs : List (C × P)) :
    st.runMatcherConsume env pairs comm = st.runMatcherConsume env pairs comm' := by
  simp only [runMatcherConsume, takesPart_congr h]

theorem mem_presentProduceHashes {hash : Bytes} :
    hash ∈ st.presentProduceHashes channels ↔
      ∃ c ∈ channels, ∃ d ∈ st.store.storedData c, d.source.hash = hash := by
  simp only [presentProduceHashes, List.mem_dedup, List.mem_map, List.mem_flatMap]
  constructor
  · rintro ⟨d, ⟨c, hChannel, hStored⟩, hHash⟩
    exact ⟨c, hChannel, d, hStored, hHash⟩
  · rintro ⟨c, hChannel, d, hStored, hHash⟩
    exact ⟨d, ⟨c, hChannel, hStored⟩, hHash⟩

theorem present_of_runMatcher (h : st.runMatcherConsume env (channels.zip patterns) comm = some cands)
    {source : Produce} (hSource : source ∈ sources cands) :
    source.hash ∈ st.presentProduceHashes channels ∧ source.hash ∈ comm.produces.map Produce.hash := by
  obtain ⟨cand, hCand, rfl⟩ := List.mem_map.mp hSource
  obtain ⟨pair, hPair, hOffered⟩ := exists_offered_of_extract h hCand
  obtain ⟨hStored, hTakes⟩ := List.mem_filter.mp hOffered.mem
  obtain ⟨n, -, hItem⟩ := mem_withIndex.mp hStored
  refine ⟨mem_presentProduceHashes.mpr ⟨pair.1, (List.of_mem_zip hPair).1, _, List.mem_of_getElem? hItem, rfl⟩, ?_⟩
  exact mem_hashes_of_takesPart hTakes

theorem sources_ne_nil (hChannels : channels ≠ []) (hLength : channels.length = patterns.length)
    (h : st.runMatcherConsume env (channels.zip patterns) comm = some cands) : sources cands ≠ [] := by
  intro hNil
  have hCands : cands = [] := List.map_eq_nil_iff.mp hNil
  have hMap := map_channel_of_extract h
  rw [hCands, List.map_fst_zip hLength.le] at hMap
  exact hChannels hMap.symm

end consume

def OwnHash (replayData : MultisetMultiMap IOEvent COMM) (consumeRef : Consume) : Prop :=
  ∀ comm : COMM, 0 < replayData.count (.consume comm.consume) comm → comm.consume.hash = consumeRef.hash →
    comm.consume = consumeRef

section narrowed

variable {replayData : MultisetMultiMap IOEvent COMM} {index : ConsumeReplayIndex} {comm : COMM} {hash : Bytes}

theorem Synced.count_pos_of_mem (h : Synced replayData index) {consumeHash : Bytes}
    (hMem : comm ∈ index consumeHash hash) :
    comm.consume.hash = consumeHash ∧ 0 < replayData.count (.consume comm.consume) comm := by
  have hHash := h.grouped _ _ comm hMem
  have hCount : 0 < (index comm.consume.hash hash).countP (· == comm) := by
    rw [hHash, List.countP_pos_iff]
    exact ⟨comm, hMem, beq_self_eq_true comm⟩
  rw [h.counted] at hCount
  exact ⟨hHash, Nat.pos_of_mul_pos_right hCount⟩

theorem Synced.exists_mem (h : Synced replayData index) (hCount : 0 < replayData.count (.consume comm.consume) comm)
    (hHash : hash ∈ comm.produces.map Produce.hash) :
    ∃ comm' ∈ index comm.consume.hash hash, (comm' == comm) = true := by
  have hIndex : 0 < (index comm.consume.hash hash).countP (· == comm) := by
    rw [h.counted]
    exact Nat.mul_pos hCount (List.count_pos_iff.mpr hHash)
  exact List.countP_pos_iff.mp hIndex

end narrowed

section both

variable [DecidableEq P] [DecidableEq K] {env : SpaceEnv C P A K} {st : ReplayRSpace C P A K} {channels : List C}
  {wk : WaitingContinuation P K} {comms : List COMM}

theorem consumeFrom_kept (h : ∀ comm ∈ comms, st.runMatcherConsume env (channels.zip wk.patterns) comm = none)
    (hNe : comms ≠ []) : st.consumeFrom env channels wk (some comms) = st.consumeFrom env channels wk none := by
  have hNone : comms.findSome? (fun comm => (st.runMatcherConsume env (channels.zip wk.patterns) comm).map
      fun cands => (comm, cands)) = none :=
    List.findSome?_eq_none_iff.mpr fun comm hMem => by rw [h comm hMem, Option.map_none]
  simp only [consumeFrom, getCommOrCandidate, if_neg hNe, hNone]
  rfl

theorem consumeFrom_found {comm : COMM} {cands : List (ConsumeCandidate C A)}
    (h : comms.findSome? (fun comm => (st.runMatcherConsume env (channels.zip wk.patterns) comm).map
      fun cands => (comm, cands)) = some (comm, cands)) :
    st.consumeFrom env channels wk (some comms) =
      { st with store := st.store.fillData channels }.finishConsume channels wk comms cands := by
  have hNe : comms ≠ [] := by
    rintro rfl
    cases h
  rw [consumeFrom, getCommOrCandidate, if_neg hNe, h]
  rfl

theorem consumeFrom_cases (env : SpaceEnv C P A K) (st : ReplayRSpace C P A K) (channels : List C)
    (wk : WaitingContinuation P K) (hNe : comms ≠ []) :
    (∃ comm ∈ comms, ∃ cands, st.runMatcherConsume env (channels.zip wk.patterns) comm = some cands ∧
      st.consumeFrom env channels wk (some comms) =
        { st with store := st.store.fillData channels }.finishConsume channels wk comms cands) ∨
    (∀ comm ∈ comms, st.runMatcherConsume env (channels.zip wk.patterns) comm = none) ∧
      st.consumeFrom env channels wk (some comms) = st.consumeFrom env channels wk none := by
  cases hFound : comms.findSome? (fun comm => (st.runMatcherConsume env (channels.zip wk.patterns) comm).map
      fun cands => (comm, cands)) with
  | none =>
    have hAll : ∀ comm ∈ comms, st.runMatcherConsume env (channels.zip wk.patterns) comm = none :=
      fun comm hMem => Option.map_eq_none_iff.mp (List.findSome?_eq_none_iff.mp hFound comm hMem)
    exact .inr ⟨hAll, consumeFrom_kept hAll hNe⟩
  | some found =>
    obtain ⟨comm, cands⟩ := found
    obtain ⟨comm', hMem, hMap⟩ := List.exists_of_findSome?_eq_some hFound
    obtain ⟨cands', hCands, hEq⟩ := Option.map_eq_some_iff.mp hMap
    obtain ⟨rfl, rfl⟩ := Prod.mk.inj hEq
    exact .inl ⟨comm', hMem, cands', hCands, consumeFrom_found hFound⟩

theorem not_fires_none : ¬ Fires (st.consumeFrom env channels wk none) := Bool.false_ne_true

omit [DecidableEq P] [DecidableEq K] in
theorem fires_finishConsume (st : ReplayRSpace C P A K) (cands : List (ConsumeCandidate C A)) :
    Fires (st.finishConsume channels wk comms cands) := by
  rw [finishConsume]
  split_ifs
  · exact rfl
  · exact ⟨_, _, rfl⟩

theorem fires_consumeFrom_iff (env : SpaceEnv C P A K) (st : ReplayRSpace C P A K) (channels : List C)
    (wk : WaitingContinuation P K) (hNe : comms ≠ []) :
    Fires (st.consumeFrom env channels wk (some comms)) ↔
      ∃ comm ∈ comms, (st.runMatcherConsume env (channels.zip wk.patterns) comm).isSome = true := by
  obtain ⟨comm, hMem, cands, hCands, hEq⟩ | ⟨hAll, hEq⟩ := consumeFrom_cases env st channels wk hNe
  · rw [hEq]
    exact iff_of_true (fires_finishConsume _ _) ⟨comm, hMem, by rw [hCands]; rfl⟩
  · rw [hEq]
    refine iff_of_false not_fires_none ?_
    rintro ⟨comm, hMem, hSome⟩
    rw [hAll comm hMem] at hSome
    cases hSome

theorem lockedConsume_eq (ord : HashOrder) (patterns : List P) (continuation : K) (persist : Bool) (peeks : Finset Int)
    (consumeRef : Consume) :
    st.lockedConsume env ord channels patterns continuation persist peeks consumeRef =
      if st.presentProduceHashes channels = [] then
        st.consumeFrom env channels ⟨patterns, continuation, persist, peeks, consumeRef⟩ none
      else st.consumeFrom env channels ⟨patterns, continuation, persist, peeks, consumeRef⟩
        (st.consumeComms ord consumeRef (st.presentProduceHashes channels)) := rfl

theorem fires_scanConsume_iff (ord : HashOrder) (patterns : List P) (continuation : K) (persist : Bool)
    (peeks : Finset Int) (consumeRef : Consume) :
    Fires (st.scanConsume env ord channels patterns continuation persist peeks consumeRef) ↔
      ∃ comm, 0 < st.replayData.count (.consume consumeRef) comm ∧
        (st.runMatcherConsume env (channels.zip patterns) comm).isSome = true := by
  rw [scanConsume]
  cases hGet : st.replayData.get? (.consume consumeRef) with
  | none =>
    refine iff_of_false not_fires_none ?_
    rintro ⟨comm, hCount, -⟩
    obtain ⟨comm', hMem, -⟩ := (MultisetMultiMap.count_pos_iff _).mp hCount
    rw [MultisetMultiMap.get?] at hGet
    split_ifs at hGet with hNil
    rw [hNil] at hMem
    cases hMem
  | some values =>
    have hMapped : (st.replayData.get? (.consume consumeRef)).map ord.comms = some (ord.comms values) := by
      rw [hGet, Option.map_some]
    rw [Option.map_some, fires_consumeFrom_iff env st channels _ (get?_ne_nil hMapped)]
    constructor
    · rintro ⟨comm, hMem, hSome⟩
      refine ⟨comm, (MultisetMultiMap.count_pos_iff _).mpr ⟨comm, ?_, beq_self_eq_true comm⟩, hSome⟩
      rw [← MultisetMultiMap.eq_values_of_get? hGet]
      exact (ord.perm_comms values).mem_iff.mp hMem
    · rintro ⟨comm, hCount, hSome⟩
      obtain ⟨comm', hMem, hSame⟩ := (MultisetMultiMap.count_pos_iff _).mp hCount
      rw [← MultisetMultiMap.eq_values_of_get? hGet] at hMem
      refine ⟨comm', (ord.perm_comms values).mem_iff.mpr hMem, ?_⟩
      rw [runMatcherConsume_congr hSame]
      exact hSome

section narrowed

variable {ord : HashOrder} {patterns : List P} {continuation : K} {persist : Bool} {peeks : Finset Int}
  {consumeRef : Consume}

omit [DecidableEq P] [DecidableEq K] in
theorem Synced.narrowed (h : Synced st.replayData st.consumeReplayIndex) (consumeRef : Consume) (ord : HashOrder)
    (channels : List C) :
    (∀ comm ∈ distinctComms ((ord.hashes (st.presentProduceHashes channels)).flatMap
      (st.consumeReplayIndex consumeRef.hash)),
      comm.consume.hash = consumeRef.hash ∧ 0 < st.replayData.count (.consume comm.consume) comm) ∧
    ∀ (comm : COMM) hash, comm.consume.hash = consumeRef.hash → 0 < st.replayData.count (.consume comm.consume) comm →
      hash ∈ st.presentProduceHashes channels → hash ∈ comm.produces.map Produce.hash →
      ∃ comm' ∈ distinctComms ((ord.hashes (st.presentProduceHashes channels)).flatMap
        (st.consumeReplayIndex consumeRef.hash)), (comm' == comm) = true := by
  constructor
  · intro comm hMem
    obtain ⟨hash, -, hIndex⟩ := List.mem_flatMap.mp (mem_distinctComms hMem)
    exact h.count_pos_of_mem hIndex
  · intro comm hash hConsume hCount hPresent hHash
    obtain ⟨comm', hMem, hSame⟩ := h.exists_mem hCount hHash
    rw [hConsume] at hMem
    obtain ⟨comm'', hMem', hIdentity⟩ := exists_mem_distinctComms
      (List.mem_flatMap.mpr ⟨hash, (ord.perm_hashes _).mem_iff.mpr hPresent, hMem⟩)
    exact ⟨comm'', hMem', BEq.trans ((COMM.beq_iff _ _).mpr hIdentity) hSame⟩

theorem fires_lockedConsume_iff (h : Synced st.replayData st.consumeReplayIndex) (hChannels : channels ≠ [])
    (hLength : channels.length = patterns.length) :
    Fires (st.lockedConsume env ord channels patterns continuation persist peeks consumeRef) ↔
      ∃ comm : COMM, comm.consume.hash = consumeRef.hash ∧ 0 < st.replayData.count (.consume comm.consume) comm ∧
        (st.runMatcherConsume env (channels.zip patterns) comm).isSome = true := by
  -- a COMM that has data names a produce that is there
  have hNamed : ∀ comm, (st.runMatcherConsume env (channels.zip patterns) comm).isSome = true →
      ∃ hash ∈ st.presentProduceHashes channels, hash ∈ comm.produces.map Produce.hash := by
    intro comm hSome
    obtain ⟨cands, hCands⟩ := Option.isSome_iff_exists.mp hSome
    obtain ⟨source, hSource⟩ := List.exists_mem_of_ne_nil _ (sources_ne_nil hChannels hLength hCands)
    obtain ⟨hPresent, hListed⟩ := present_of_runMatcher hCands hSource
    exact ⟨source.hash, hPresent, hListed⟩
  rw [lockedConsume_eq]
  split_ifs with hPresent
  · refine iff_of_false not_fires_none ?_
    rintro ⟨comm, -, -, hSome⟩
    obtain ⟨hash, hMem, -⟩ := hNamed comm hSome
    rw [hPresent] at hMem
    cases hMem
  · obtain ⟨hBound, hListed⟩ := h.narrowed consumeRef ord channels
    rw [consumeComms]
    split_ifs with hNarrowed
    · rw [fires_consumeFrom_iff env st channels _ hNarrowed]
      constructor
      · rintro ⟨comm, hMem, hSome⟩
        exact ⟨comm, (hBound comm hMem).1, (hBound comm hMem).2, hSome⟩
      · rintro ⟨comm, hConsume, hCount, hSome⟩
        obtain ⟨hash, hThere, hHash⟩ := hNamed comm hSome
        obtain ⟨comm', hMem, hSame⟩ := hListed comm hash hConsume hCount hThere hHash
        exact ⟨comm', hMem, by rw [runMatcherConsume_congr hSame]; exact hSome⟩
    · refine (fires_scanConsume_iff ord patterns continuation persist peeks consumeRef).trans ⟨?_, ?_⟩
      · rintro ⟨comm, hCount, hSome⟩
        obtain rfl := h.keyed consumeRef comm hCount
        exact ⟨comm, rfl, hCount, hSome⟩
      · rintro ⟨comm, hConsume, hCount, hSome⟩
        obtain ⟨hash, hThere, hHash⟩ := hNamed comm hSome
        obtain ⟨comm', hMem, -⟩ := hListed comm hash hConsume hCount hThere hHash
        exact absurd (List.ne_nil_of_mem hMem) hNarrowed

def reordered (comms comms' : List COMM) (h : comms'.Perm comms) : HashOrder where
  comms l := if l = comms then comms' else l
  hashes := id
  perm_comms l := by
    split_ifs with hEq
    · exact hEq ▸ h
    · exact .refl l
  perm_hashes := HashOrder.refl.perm_hashes

theorem consumeFrom_of_not_fires {recorded : Option (List COMM)} (hNe : ∀ comms, recorded = some comms → comms ≠ [])
    (h : ¬ Fires (st.consumeFrom env channels wk recorded)) :
    st.consumeFrom env channels wk recorded = st.consumeFrom env channels wk none := by
  cases recorded with
  | none => rfl
  | some comms =>
    obtain ⟨comm, hMem, cands, -, hEq⟩ | ⟨-, hEq⟩ := consumeFrom_cases env st channels wk (hNe comms rfl)
    · rw [hEq] at h
      exact absurd (fires_finishConsume _ _) h
    · exact hEq

omit [DecidableEq P] [DecidableEq K] in
theorem sameOutcome_finishConsume {comms' : List COMM} {cands : List (ConsumeCandidate C A)}
    (h : (comms.any (· == COMM.new (sources cands) wk.source wk.peeks st.produceCounter)) =
      comms'.any (· == COMM.new (sources cands) wk.source wk.peeks st.produceCounter)) :
    SameOutcome (st.finishConsume channels wk comms cands) (st.finishConsume channels wk comms' cands) := by
  rw [finishConsume, finishConsume, h]
  split_ifs
  · exact .inl rfl
  · exact .inr ⟨⟨_, rfl⟩, _, rfl⟩

omit [DecidableEq P] [DecidableEq K] in
theorem Synced.any_narrowed (h : Synced st.replayData st.consumeReplayIndex) (hOwn : OwnHash st.replayData consumeRef)
    (ord : HashOrder) {values : List COMM} (hGet : st.replayData.get? (.consume consumeRef) = some values)
    {comm : COMM} {hash : Bytes} (hPresent : hash ∈ st.presentProduceHashes channels)
    (hHash : hash ∈ comm.produces.map Produce.hash) :
    (distinctComms ((ord.hashes (st.presentProduceHashes channels)).flatMap
      (st.consumeReplayIndex consumeRef.hash))).any (· == comm) = values.any (· == comm) := by
  obtain ⟨hBound, hListed⟩ := h.narrowed consumeRef ord channels
  rw [MultisetMultiMap.eq_values_of_get? hGet, Bool.eq_iff_iff, List.any_eq_true, List.any_eq_true]
  constructor
  · rintro ⟨c, hMem, hSame⟩
    obtain ⟨hConsume, hCount⟩ := hBound c hMem
    rw [hOwn c hCount hConsume] at hCount
    obtain ⟨c', hMem', hSame'⟩ := (MultisetMultiMap.count_pos_iff _).mp hCount
    exact ⟨c', hMem', BEq.trans hSame' hSame⟩
  · rintro ⟨c, hMem, hSame⟩
    have hCount := (MultisetMultiMap.count_pos_iff _).mpr ⟨c, hMem, beq_self_eq_true c⟩
    obtain rfl := h.keyed consumeRef c hCount
    obtain ⟨c', hMem', hSame'⟩ := hListed c hash rfl hCount hPresent (by rw [hashes_eq_of_beq hSame]; exact hHash)
    exact ⟨c', hMem', BEq.trans hSame' hSame⟩

theorem exists_sameOutcome_scanConsume (h : Synced st.replayData st.consumeReplayIndex)
    (hOwn : OwnHash st.replayData consumeRef) (hChannels : channels ≠ []) (hLength : channels.length = patterns.length)
    (ord : HashOrder) (continuation : K) (persist : Bool) (peeks : Finset Int) :
    ∃ ord', SameOutcome (st.lockedConsume env ord channels patterns continuation persist peeks consumeRef)
      (st.scanConsume env ord' channels patterns continuation persist peeks consumeRef) := by
  by_cases hFires : Fires (st.lockedConsume env ord channels patterns continuation persist peeks consumeRef)
  · rw [lockedConsume_eq] at hFires ⊢
    split_ifs at hFires ⊢ with hPresent
    · exact absurd hFires not_fires_none
    · rw [consumeComms] at hFires ⊢
      split_ifs at hFires ⊢ with hNarrowed
      · obtain ⟨comm, hMem, cands, hCands, hEq⟩ | ⟨-, hEq⟩ := consumeFrom_cases env st channels
          ⟨patterns, continuation, persist, peeks, consumeRef⟩ hNarrowed
        · obtain ⟨hConsume, hCount⟩ := (h.narrowed consumeRef ord channels).1 comm hMem
          rw [hOwn comm hCount hConsume] at hCount
          obtain ⟨comm', hValues, hSame⟩ := (MultisetMultiMap.count_pos_iff _).mp hCount
          have hGet : st.replayData.get? (.consume consumeRef) = some (st.replayData.values (.consume consumeRef)) :=
            if_neg (List.ne_nil_of_mem hValues)
          obtain ⟨front, back, hSplit⟩ := List.append_of_mem hValues
          have hPerm : (comm' :: (front ++ back)).Perm (st.replayData.values (.consume consumeRef)) := by
            rw [hSplit]
            exact List.perm_middle.symm
          have hScan : st.scanConsume env (reordered _ _ hPerm) channels patterns continuation persist peeks consumeRef =
              { st with store := st.store.fillData channels }.finishConsume channels
                ⟨patterns, continuation, persist, peeks, consumeRef⟩ (comm' :: (front ++ back)) cands := by
            have hOrder : (reordered _ _ hPerm).comms (st.replayData.values (.consume consumeRef)) =
                comm' :: (front ++ back) := if_pos rfl
            rw [scanConsume, hGet, Option.map_some, hOrder]
            refine @consumeFrom_found _ _ _ _ _ _ _ _ _ _ _ _ comm' cands ?_
            rw [List.findSome?_cons, runMatcherConsume_congr hSame, hCands]
            rfl
          obtain ⟨source, hSource⟩ := List.exists_mem_of_ne_nil _ (sources_ne_nil hChannels hLength hCands)
          refine ⟨reordered _ _ hPerm, ?_⟩
          rw [hEq, hScan]
          refine sameOutcome_finishConsume ?_
          rw [hPerm.any_eq]
          refine h.any_narrowed hOwn ord hGet (present_of_runMatcher hCands hSource).1 ?_
          exact List.mem_map_of_mem (mem_sortProduces.mpr hSource)
        · rw [hEq] at hFires
          exact absurd hFires not_fires_none
      · exact ⟨ord, .inl rfl⟩
  · have hScan : ¬ Fires (st.scanConsume env ord channels patterns continuation persist peeks consumeRef) := by
      rw [fires_scanConsume_iff]
      rintro ⟨comm, hCount, hSome⟩
      obtain rfl := h.keyed consumeRef comm hCount
      exact hFires ((fires_lockedConsume_iff h hChannels hLength).mpr ⟨comm, rfl, hCount, hSome⟩)
    refine ⟨ord, .inl ?_⟩
    rw [scanConsume] at hScan ⊢
    rw [consumeFrom_of_not_fires (fun comms hComms => get?_ne_nil hComms) hScan]
    rw [lockedConsume_eq] at hFires ⊢
    split_ifs at hFires ⊢ with hPresent
    · rfl
    · refine consumeFrom_of_not_fires (fun comms hComms => ?_) hFires
      rw [consumeComms] at hComms
      split_ifs at hComms with hNarrowed
      · exact Option.some.inj hComms ▸ hNarrowed
      · exact get?_ne_nil hComms

end narrowed

end both

/-- The calls of a replaying space. Those that leave the recorded COMMs alone are one. -/
inductive Call (C P A K : Type) where
  | op (op : Op C P A K) (ord : HashOrder)
  | rig (log : Log)
  | clear (store : HotStore C P A K)
  | replace (store : HotStore C P A K) (produceCounter : Bytes → Int)

def created (store : HotStore C P A K) : ReplayRSpace C P A K := ⟨store, fun _ => 0, .empty, fun _ _ => []⟩

section runs

variable [DecidableEq P] [DecidableEq K]

def call (env : SpaceEnv C P A K) (st : ReplayRSpace C P A K) : Call C P A K → Except Panic (ReplayRSpace C P A K)
  | .op op ord => (st.step env ord op).map Prod.snd
  | .rig log => .ok { st with replayData := rigReplayData log, consumeReplayIndex := rigIndex log }
  | .clear store => .ok (created store)
  | .replace store produceCounter => .ok { st with store := store, produceCounter := produceCounter }

/-- Where there are data for a COMM of another consume with the same hash, there are data for one of the consume
itself. -/
def OwnDataToo (env : SpaceEnv C P A K) (st : ReplayRSpace C P A K) (channels : List C) (patterns : List P)
    (consumeRef : Consume) : Prop :=
  (∃ comm : COMM, comm.consume.hash = consumeRef.hash ∧ comm.consume ≠ consumeRef ∧
    0 < st.replayData.count (.consume comm.consume) comm ∧
    (st.runMatcherConsume env (channels.zip patterns) comm).isSome = true) →
  ∃ comm, 0 < st.replayData.count (.consume consumeRef) comm ∧
    (st.runMatcherConsume env (channels.zip patterns) comm).isSome = true

variable {env : SpaceEnv C P A K} {st st' : ReplayRSpace C P A K}

theorem Synced.call (h : Synced st.replayData st.consumeReplayIndex) {c : Call C P A K}
    (hLogged : ∀ log, c = .rig log → ConsumesLogged log) (hCall : st.call env c = .ok st') :
    Synced st'.replayData st'.consumeReplayIndex := by
  cases c with
  | op op ord =>
    rw [ReplayRSpace.call] at hCall
    cases hStep : st.step env ord op with
    | error panic =>
      rw [hStep] at hCall
      cases hCall
    | ok r =>
      have hOutcome := step_outcome env ord st (accepted_of_step hStep)
      rw [hStep] at hCall hOutcome
      cases hCall
      cases hOutcome with
      | fired comms comm pc s => exact h.remove _
      | kept s => exact h
  | rig log =>
    cases hCall
    exact synced_rig (hLogged log rfl)
  | clear store =>
    cases hCall
    exact Synced.empty
  | replace store produceCounter =>
    cases hCall
    exact h

theorem Synced.calls {calls : List (Call C P A K)} (hLogged : ∀ log, .rig log ∈ calls → ConsumesLogged log)
    (h : Synced st.replayData st.consumeReplayIndex) (hRun : calls.foldlM (ReplayRSpace.call env) st = .ok st') :
    Synced st'.replayData st'.consumeReplayIndex := by
  induction calls generalizing st with
  | nil =>
    cases hRun
    exact h
  | cons c calls ih =>
    rw [List.foldlM_cons] at hRun
    cases hCall : st.call env c with
    | error panic =>
      rw [hCall] at hRun
      cases hRun
    | ok next =>
      rw [hCall] at hRun
      refine ih (fun log hMem => hLogged log (List.mem_cons_of_mem _ hMem)) ?_ hRun
      exact h.call (fun log hEq => hLogged log (hEq ▸ List.mem_cons_self)) hCall

/-- After any calls the index is in step with the recorded COMMs. A consume fires by the index as by the scan, unless
there are data for COMMs of another consume with its hash only. -/
theorem synced_and_fires_iff (env : SpaceEnv C P A K) (store : HotStore C P A K) (calls : List (Call C P A K))
    (hLogged : ∀ log, .rig log ∈ calls → ConsumesLogged log) {st : ReplayRSpace C P A K}
    (hRun : calls.foldlM (ReplayRSpace.call env) (created store) = .ok st) :
    Synced st.replayData st.consumeReplayIndex ∧
    ∀ channels patterns continuation persist peeks,
      Accepted (.consume channels patterns continuation persist peeks : Op C P A K) →
      ((∀ ord ord', Fires (st.consume env ord channels patterns continuation persist peeks) ↔
          Fires (st.scanConsume env ord' channels patterns continuation persist peeks
            (Consume.create env channels patterns continuation persist))) ↔
        OwnDataToo env st channels patterns (Consume.create env channels patterns continuation persist)) ∧
      (OwnHash st.replayData (Consume.create env channels patterns continuation persist) →
        ∀ ord, ∃ ord', SameOutcome (st.consume env ord channels patterns continuation persist peeks)
          (st.scanConsume env ord' channels patterns continuation persist peeks
            (Consume.create env channels patterns continuation persist))) := by
  have hStart : Synced (created store).replayData (created store).consumeReplayIndex := Synced.empty
  have hSynced := hStart.calls hLogged hRun
  refine ⟨hSynced, fun channels patterns continuation persist peeks hAccepted => ?_⟩
  have hConsume : ∀ ord, st.consume env ord channels patterns continuation persist peeks =
      st.lockedConsume env ord channels patterns continuation persist peeks
        (Consume.create env channels patterns continuation persist) := by
    intro ord
    rw [consume, if_neg hAccepted.1, if_neg (not_not.mpr hAccepted.2)]
  simp only [hConsume, fires_lockedConsume_iff hSynced hAccepted.1 hAccepted.2, fires_scanConsume_iff]
  refine ⟨⟨fun hAll hOther => ?_, fun hOwn _ _ => ⟨?_, ?_⟩⟩, fun hOwn ord =>
    exists_sameOutcome_scanConsume hSynced hOwn hAccepted.1 hAccepted.2 ord continuation persist peeks⟩
  · obtain ⟨comm, hHash, -, hCount, hSome⟩ := hOther
    exact (hAll .refl .refl).mp ⟨comm, hHash, hCount, hSome⟩
  · rintro ⟨comm, hHash, hCount, hSome⟩
    by_cases hSame : comm.consume = Consume.create env channels patterns continuation persist
    · exact ⟨comm, hSame ▸ hCount, hSome⟩
    · exact hOwn ⟨comm, hHash, hSame, hCount, hSome⟩
  · rintro ⟨comm, hCount, hSome⟩
    have hKey := hSynced.keyed _ comm hCount
    exact ⟨comm, by rw [hKey], by rw [hKey]; exact hCount, hSome⟩

end runs

/-- A log of a produce and of a consume on the channel 7, with the channels that the proposer claims for the consume. -/
def logWithChannels (channelHashes : List Bytes) : Log :=
  let p := Produce.create sampleEnv 7 1 false
  let c := { Consume.create sampleEnv [7] [0] 0 false with channelHashes := channelHashes }
  [.ioEvent (.produce p), .ioEvent (.consume c), .comm (COMM.new [p] c ∅ fun _ => 1)]

theorem consumesLogged_logWithChannels (channelHashes : List Bytes) : ConsumesLogged (logWithChannels channelHashes) := by
  intro comm hMem
  simp only [logWithChannels, List.mem_cons, reduceCtorEq, Event.comm.injEq, List.not_mem_nil, or_false, false_or] at hMem ⊢
  rw [hMem]
  exact .inr rfl

def riggedCalls (log : Log) : List (Call Nat Nat Nat Nat) := [.rig log, .op (.produce 7 1 false) .refl]

/-- With the right channels the consume fires as by the scan. -/
theorem synced_and_fires_sample :
    ∃ st, (riggedCalls (logWithChannels (sampleEnv.hashVec [7]))).foldlM (ReplayRSpace.call sampleEnv)
        (created emptySpace.store) = .ok st ∧
      ∀ ord ord', Fires (st.consume sampleEnv ord [7] [0] 0 false ∅) ↔
        Fires (st.scanConsume sampleEnv ord' [7] [0] 0 false ∅ (Consume.create sampleEnv [7] [0] 0 false)) := by
  have hLogged : ∀ log, Call.rig log ∈ riggedCalls (logWithChannels (sampleEnv.hashVec [7])) → ConsumesLogged log := by
    intro log hMem
    simp only [riggedCalls, List.mem_cons, Call.rig.injEq, reduceCtorEq, List.not_mem_nil, or_false] at hMem
    rw [hMem]
    exact consumesLogged_logWithChannels _
  refine ⟨_, rfl, ((synced_and_fires_iff sampleEnv emptySpace.store _ hLogged rfl).2 [7] [0] 0 false ∅
    (by decide)).1.mpr fun _ => ?_⟩
  exact ⟨COMM.new [Produce.create sampleEnv 7 1 false] (Consume.create sampleEnv [7] [0] 0 false) ∅ fun _ => 1,
    by decide, by decide⟩

/-- With other channels, the COMM of the other consume is found by its hash and the consume panics, while the scan finds
no COMM of the consume. -/
theorem forgedChannels_fires :
    ConsumesLogged (logWithChannels []) ∧
    ∃ st, (riggedCalls (logWithChannels [])).foldlM (ReplayRSpace.call sampleEnv) (created emptySpace.store) = .ok st ∧
      Fires (st.consume sampleEnv .refl [7] [0] 0 false ∅) ∧
      ¬ Fires (st.scanConsume sampleEnv .refl [7] [0] 0 false ∅ (Consume.create sampleEnv [7] [0] 0 false)) :=
  ⟨consumesLogged_logWithChannels [], _, rfl, ⟨_, _, rfl⟩, Bool.false_ne_true⟩

end F1r3Node.Space.ReplayRSpace
