import F1r3Node.Space.ReplayRSpaceSpec
import F1r3Node.Space.MatchedData

/-! # The assertion of the replaying space

The data on offer for a recorded COMM are filtered by hashes and, unless persistent, by counters; the peeks and the
number of produces are not looked at.
-/

namespace F1r3Node.Space.ReplayRSpace

open Shared Lib HotStore RSpace

variable {C P A K : Type} [DecidableEq C]

section conditions

variable (env : SpaceEnv C P A K) (store : HotStore C P A K) (ops : List (Op C P A K))

def KnownDatum (channel : C) (d : Datum A) : Prop :=
  d ∈ store.storedData channel ∨
    ∃ data persist, .produce channel data persist ∈ ops ∧ d = datumOf env channel data persist

def KnownWait (channels : List C) (w : WaitingContinuation P K) : Prop :=
  w ∈ (store.getContinuations channels).1 ∨
    ∃ patterns continuation persist peeks, .consume channels patterns continuation persist peeks ∈ ops ∧
      w = waiting env channels patterns continuation persist peeks

def boundChannels (channels : List C) (w : WaitingContinuation P K) : List C :=
  (channels.zip w.patterns).map Prod.fst

/-- A recorded COMM that is one of the waiting continuation: it lists one produce for each bind, and
the known data of the join that take part in it are those of the produces it lists. -/
structure Traced (channels : List C) (w : WaitingContinuation P K) (comm : COMM) : Prop where
  consume_eq : comm.consume = w.source
  peeks_eq : comm.peeks = w.peeks
  produces_eq : ∃ chosen : C → Produce,
    comm.produces.map Produce.hash =
      (sortProduces ((boundChannels channels w).map chosen)).map Produce.hash ∧
    ∀ c ∈ boundChannels channels w, ∀ d, KnownDatum env store ops c d →
      d.source.hash ∈ comm.produces.map Produce.hash → d.source.sortKey = (chosen c).sortKey
  counted : ∀ h, (comm.timesRepeated.lookup h).isSome → h ∈ comm.produces.map Produce.hash
  uncounted : ∀ c ∈ boundChannels channels w, ∀ d, KnownDatum env store ops c d → d.persist = true →
    d.source.hash ∈ comm.produces.map Produce.hash → comm.timesRepeated.lookup d.source.hash = some 0

/-- A log all of whose COMMs can be reproduced when their data are there. -/
structure Traceable (log : Log) : Prop where
  traced : ∀ comm, .comm comm ∈ log → ∀ channels w, KnownWait env store ops channels w →
    comm.consume.hash = w.source.hash → Traced env store ops channels w comm
  uncounted : ∀ c d, KnownDatum env store ops c d → d.persist = true →
    ∀ c' data, .produce c' data false ∈ ops → (Produce.create env c' data false).hash ≠ d.source.hash

end conditions

variable {env : SpaceEnv C P A K} {store : HotStore C P A K} {ops : List (Op C P A K)}

theorem map_sortKey_sortProduces (produces : List Produce) :
    (sortProduces produces).map Produce.sortKey = (produces.map Produce.sortKey).insertionSort (· ≤ ·) :=
  List.map_insertionSort _ _ _ _ fun _ _ _ _ => Iff.rfl

theorem map_hash_sortProduces_congr {produces produces' : List Produce}
    (h : produces.map Produce.sortKey = produces'.map Produce.sortKey) :
    (sortProduces produces).map Produce.hash = (sortProduces produces').map Produce.hash := by
  have hKeys : (sortProduces produces).map Produce.sortKey = (sortProduces produces').map Produce.sortKey := by
    rw [map_sortKey_sortProduces, map_sortKey_sortProduces, h]
  have hHashes := congrArg (List.map fun key : Bytes ×ₗ Bytes ×ₗ Bool => (ofLex (ofLex key).2).1) hKeys
  rwa [List.map_map, List.map_map] at hHashes

structure TakesPart (env : SpaceEnv C P A K) (store : HotStore C P A K) (ops : List (Op C P A K))
    (comm : COMM) (counter : Bytes → Int) (bind : C × P) (cand : ConsumeCandidate C A) : Prop where
  channel_eq : cand.channel = bind.1
  known : KnownDatum env store ops bind.1 cand.origin.1
  takesPart : takesPart comm counter cand.datum.source cand.datum.persist = true

variable {comm : COMM}

theorem mem_hashes_of_takesPart {counter : Bytes → Int} {source : Produce} {persist : Bool}
    (h : takesPart comm counter source persist = true) :
    source.hash ∈ comm.produces.map Produce.hash := by
  obtain ⟨p, hMem, hHash⟩ := List.any_eq_true.mp ((Bool.and_eq_true _ _).mp h).1
  exact List.mem_map.mpr ⟨p, hMem, of_decide_eq_true hHash⟩

theorem Traced.identity_eq {channels : List C} {w : WaitingContinuation P K}
    (h : Traced env store ops channels w comm) {counter : Bytes → Int}
    (hCounter : ∀ c d, KnownDatum env store ops c d → d.persist = true → counter d.source.hash = 0)
    {cands : List (ConsumeCandidate C A)}
    (hCands : List.Forall₂ (TakesPart env store ops comm counter) (channels.zip w.patterns) cands) :
    (COMM.new (sources cands) w.source w.peeks counter).identity = comm.identity := by
  obtain ⟨chosen, hProduces, hChosen⟩ := h.produces_eq
  have hKeys : (sources cands).map Produce.sortKey =
      ((boundChannels channels w).map chosen).map Produce.sortKey := by
    rw [sources, boundChannels, List.map_map, List.map_map, List.map_map]
    refine (map_eq_of_forall₂ hCands fun bind hBind cand hTakes => ?_).symm
    exact (hChosen bind.1 (List.mem_map_of_mem hBind) _ hTakes.known
      (mem_hashes_of_takesPart hTakes.takesPart)).symm
  have hHashes : (sortProduces (sources cands)).map Produce.hash = comm.produces.map Produce.hash :=
    (map_hash_sortProduces_congr hKeys).trans hProduces.symm
  have hTimes : produceCounters counter (sortProduces (sources cands)) = comm.timesRepeated := by
    apply Finmap.ext_lookup
    intro hash
    rw [lookup_produceCounters]
    split_ifs with hMem
    · obtain ⟨p, hp, rfl⟩ := List.mem_map.mp hMem
      obtain ⟨cand, hCand, rfl⟩ := List.mem_map.mp (mem_sortProduces.mp hp)
      obtain ⟨bind, hBind, hTakes⟩ := exists_left_of_forall₂ hCands hCand
      rw [hHashes] at hMem
      cases hPersist : cand.datum.persist with
      | true =>
        have hZero : counter cand.datum.source.hash = 0 := hCounter bind.1 cand.origin.1 hTakes.known hPersist
        rw [hZero]
        exact (h.uncounted bind.1 (List.mem_map_of_mem hBind) _ hTakes.known hPersist hMem).symm
      | false =>
        have hLookup := ((Bool.and_eq_true _ _).mp hTakes.takesPart).2
        rw [hPersist, Bool.false_or] at hLookup
        exact (of_decide_eq_true hLookup).symm
    · rw [hHashes] at hMem
      exact (Option.not_isSome_iff_eq_none.mp fun hSome => hMem (h.counted hash hSome)).symm
  rw [COMM.identity, COMM.identity, COMM.new, h.consume_eq, h.peeks_eq]
  simp only [hHashes, hTimes]

/-- What holds of the space during a replay of a log: it holds known data and continuations only, and
what is left of the log. -/
structure Replaying (env : SpaceEnv C P A K) (store : HotStore C P A K) (ops : List (Op C P A K))
    (log : Log) (st : ReplayRSpace C P A K) : Prop where
  data : ∀ c, ∀ d ∈ st.store.storedData c, KnownDatum env store ops c d
  waits : ∀ cs, ∀ w ∈ (st.store.getContinuations cs).1, KnownWait env store ops cs w
  index : ∀ h ph, ∀ comm ∈ st.consumeReplayIndex h ph, .comm comm ∈ log ∧ comm.consume.hash = h
  replayData : ∀ e comm, st.replayData.Binds e comm → .comm comm ∈ log ∧ e ∈ comm.ioEvents
  counter : ∀ c d, KnownDatum env store ops c d → d.persist = true → st.produceCounter d.source.hash = 0

theorem binds_foldl_events {events newStuff : List IOEvent} {comm' : COMM} {e : IOEvent}
    {m : MultisetMultiMap IOEvent COMM}
    (h : (events.foldl (fun m e => if newStuff.any (· == e) then m.addBinding e comm else m) m).Binds e comm') :
    m.Binds e comm' ∨ e ∈ events ∧ comm' = comm := by
  induction events generalizing m with
  | nil => exact .inl h
  | cons head events ih =>
    rcases ih h with hBinds | ⟨hMem, hComm⟩
    · beta_reduce at hBinds
      split_ifs at hBinds
      · rcases MultisetMultiMap.binds_of_addBinding hBinds with hBinds | ⟨rfl, rfl⟩
        · exact .inl hBinds
        · exact .inr ⟨List.mem_cons_self, rfl⟩
      · exact .inl hBinds
    · exact .inr ⟨List.mem_cons_of_mem _ hMem, hComm⟩

theorem binds_rigReplayData {log : Log} {e : IOEvent}
    (h : (rigReplayData log).Binds e comm) : .comm comm ∈ log ∧ e ∈ comm.ioEvents := by
  rw [← mem_filterMap_comm]
  rw [rigReplayData] at h
  have hFold : ∀ (comms : List COMM) (m : MultisetMultiMap IOEvent COMM),
      (comms.foldl (fun m comm => comm.ioEvents.foldl (fun m e =>
        if (log.filterMap Event.ioEvent?).any (· == e) then m.addBinding e comm else m) m) m).Binds e comm →
      m.Binds e comm ∨ comm ∈ comms ∧ e ∈ comm.ioEvents := by
    intro comms
    induction comms with
    | nil => exact fun m hBinds => .inl hBinds
    | cons head comms ih =>
      intro m hBinds
      rcases ih _ hBinds with hBinds | ⟨hMem, hEvent⟩
      · rcases binds_foldl_events hBinds with hBinds | ⟨hEvent, rfl⟩
        · exact .inl hBinds
        · exact .inr ⟨List.mem_cons_self, hEvent⟩
      · exact .inr ⟨List.mem_cons_of_mem _ hMem, hEvent⟩
  exact (hFold _ _ h).resolve_left MultisetMultiMap.not_binds_empty

theorem replaying_rigAndReset (env : SpaceEnv C P A K) (store : HotStore C P A K) (ops : List (Op C P A K))
    (log : Log) : Replaying env store ops log (rigAndReset store log) where
  data _ _ hMem := .inl hMem
  waits _ _ hMem := .inl hMem
  index _ _ _ hMem := ⟨(mem_rigIndex_iff.mp hMem).1, (mem_rigIndex_iff.mp hMem).2.1⟩
  replayData _ _ hBinds := binds_rigReplayData hBinds
  counter _ _ _ _ := rfl

section step

variable {log : Log} {st : ReplayRSpace C P A K} {op : Op C P A K} {ord : HashOrder}

variable {comm : COMM}

section

variable (h : Replaying env store ops log st)

include h

theorem Replaying.mem_recorded {comms : List COMM}
    (hRecorded : recorded env ord st op = some comms) (hMem : comm ∈ comms) :
    .comm comm ∈ log ∧ ∀ channels patterns continuation persist peeks,
      op = .consume channels patterns continuation persist peeks →
      comm.consume.hash = (Consume.create env channels patterns continuation persist).hash := by
  cases op with
  | consume channels patterns continuation persist peeks =>
    have hResult : .comm comm ∈ log ∧
        comm.consume.hash = (Consume.create env channels patterns continuation persist).hash := by
      rw [recorded] at hRecorded
      split_ifs at hRecorded
      rw [consumeComms] at hRecorded
      split_ifs at hRecorded
      · obtain rfl := Option.some.inj hRecorded
        obtain ⟨hash, -, hIndex⟩ := List.mem_flatMap.mp (mem_distinctComms hMem)
        exact h.index _ _ comm hIndex
      · obtain ⟨values, hGet, rfl⟩ := Option.map_eq_some_iff.mp hRecorded
        obtain ⟨e, hSame, hBinds⟩ := MultisetMultiMap.binds_of_get? hGet ((ord.perm_comms _).subset hMem)
        obtain ⟨hLog, hEvent⟩ := h.replayData e comm hBinds
        refine ⟨hLog, ?_⟩
        rw [IOEvent.beq_iff] at hSame
        rcases List.mem_cons.mp hEvent with rfl | hProduce
        · exact congrArg Consume.hash (Sum.inr.inj hSame)
        · obtain ⟨p, -, rfl⟩ := List.mem_map.mp hProduce
          cases hSame
    refine ⟨hResult.1, ?_⟩
    rintro _ _ _ _ _ ⟨⟩
    exact hResult.2
  | produce channel data persist =>
    obtain ⟨values, hGet, rfl⟩ := Option.map_eq_some_iff.mp hRecorded
    obtain ⟨e, -, hBinds⟩ := MultisetMultiMap.binds_of_get? hGet ((ord.perm_comms _).subset hMem)
    refine ⟨(h.replayData e comm hBinds).1, ?_⟩
    rintro _ _ _ _ _ ⟨⟩

theorem Replaying.counterAfter (hTraceable : Traceable env store ops log)
    (hOp : op ∈ ops) {c : C} {d : Datum A} (hKnown : KnownDatum env store ops c d)
    (hPersist : d.persist = true) : counterAfter env st.produceCounter op d.source.hash = 0 := by
  cases op with
  | consume channels patterns continuation persist peeks => exact h.counter c d hKnown hPersist
  | produce channel data persist =>
    rw [RSpace.counterAfter, countProduce]
    cases persist with
    | true => exact h.counter c d hKnown hPersist
    | false =>
      have hOther := hTraceable.uncounted c d hKnown hPersist channel data hOp
      rw [if_neg Bool.false_ne_true, Function.update_of_ne hOther.symm]
      exact h.counter c d hKnown hPersist

theorem Replaying.known_of_mem {c : C} {item : Datum A × Int}
    (hMem : item ∈ withIndex (st.store.storedData c)) : KnownDatum env store ops c item.1 := by
  obtain ⟨n, -, hItem⟩ := mem_withIndex.mp hMem
  exact h.data c item.1 (List.mem_of_getElem? hItem)

theorem Replaying.takesPart_of_candidate (hOp : op ∈ ops)
    {pc : ProduceCandidate C P A K} (hCandidate : candidate env st op comm = some pc) :
    KnownWait env store ops pc.channels pc.continuation ∧
    (∀ channel data persist, op = .produce channel data persist → comm.consume = pc.continuation.source) ∧
    (∀ channels patterns continuation persist peeks,
      op = .consume channels patterns continuation persist peeks →
        pc.continuation.source = Consume.create env channels patterns continuation persist) ∧
    List.Forall₂ (TakesPart env store ops comm (RSpace.counterAfter env st.produceCounter op))
      (pc.channels.zip pc.continuation.patterns) pc.dataCandidates := by
  cases op with
  | consume channels patterns continuation persist peeks =>
    obtain ⟨cands, hExtract, rfl⟩ := Option.map_eq_some_iff.mp hCandidate
    refine ⟨.inr ⟨patterns, continuation, persist, peeks, hOp, rfl⟩, ?_, ?_, ?_⟩
    · rintro _ _ _ ⟨⟩
    · rintro _ _ _ _ _ ⟨⟩
      rfl
    · refine (offered_of_extract hExtract).imp fun bind cand hOffered => ?_
      obtain ⟨hMem, hTakes⟩ := List.mem_filter.mp hOffered.mem
      exact ⟨hOffered.channel_eq, h.known_of_mem hMem, hTakes⟩
  | produce channel data persist =>
    obtain ⟨n, channels, hJoin, hExtract⟩ := exists_of_runMatcher hCandidate
    obtain ⟨rfl, hCont, -, data', hSub, hExtracted⟩ := firstMatch_of_extract hExtract
    obtain ⟨hWaits, hConsume⟩ := List.mem_filter.mp hCont
    refine ⟨?_, ?_, ?_, ?_⟩
    · obtain ⟨m, -, hItem⟩ := mem_withIndex.mp hWaits
      exact h.waits _ _ (List.mem_of_getElem? hItem)
    · intro _ _ _ _
      exact of_decide_eq_true hConsume
    · rintro _ _ _ _ _ ⟨⟩
    · refine (offered_of_extract hExtracted).imp fun bind cand hOffered => ?_
      have hMem := (hSub bind.1).subset hOffered.mem
      rcases List.mem_append.mp hMem with hOwn | hStored
      · split_ifs at hOwn with hChannel
        · obtain hOrigin := List.mem_singleton.mp hOwn
          have hDatum : cand.origin.1 = datumOf env channel data persist := congrArg Prod.fst hOrigin
          refine ⟨hOffered.channel_eq, .inr ⟨data, persist, ?_, ?_⟩, ?_⟩
          · rw [hChannel.1]
            exact hOp
          · rw [hDatum, hChannel.1]
          · change takesPart comm _ cand.origin.1.source cand.origin.1.persist = true
            rw [hDatum]
            exact hChannel.2
        · cases hOwn
      · obtain ⟨hMem, hTakes⟩ := List.mem_filter.mp hStored
        exact ⟨hOffered.channel_eq, h.known_of_mem hMem, hTakes⟩

theorem Replaying.identity_reproduced (hTraceable : Traceable env store ops log) (hOp : op ∈ ops) {comms : List COMM}
    {pc : ProduceCandidate C P A K} (hRecorded : recorded env ord st op = some comms)
    (hMem : comm ∈ comms) (hCandidate : candidate env st op comm = some pc) :
    (reproduced env st op pc).identity = comm.identity := by
  obtain ⟨hLog, hHash⟩ := h.mem_recorded hRecorded hMem
  obtain ⟨hWait, hProduce, hConsume, hTakes⟩ := h.takesPart_of_candidate hOp hCandidate
  have hSame : comm.consume.hash = pc.continuation.source.hash := by
    cases op with
    | consume channels patterns continuation persist peeks =>
      rw [hConsume _ _ _ _ _ rfl]
      exact hHash _ _ _ _ _ rfl
    | produce channel data persist => rw [hProduce _ _ _ rfl]
  exact (hTraceable.traced comm hLog _ _ hWait hSame).identity_eq
    (fun c d hKnown hPersist => h.counterAfter hTraceable hOp hKnown hPersist) hTakes

end

variable [DecidableEq P] [DecidableEq K]

omit [DecidableEq P] [DecidableEq K] in
theorem mem_of_removeFromIndex {index : ConsumeReplayIndex} {c : COMM} {ps : List Produce} {h ph : Bytes}
    (hMem : c ∈ ps.foldl (fun index p => removeFromIndex index comm p) index h ph) : c ∈ index h ph := by
  induction ps generalizing index with
  | nil => exact hMem
  | cons p ps ih =>
    have hStep : c ∈ removeFromIndex index comm p h ph := ih hMem
    rw [removeFromIndex] at hStep
    by_cases hConsume : h = comm.consume.hash
    · subst hConsume
      rw [Function.update_self] at hStep
      by_cases hProduce : ph = p.hash
      · subst hProduce
        rw [Function.update_self] at hStep
        exact List.mem_of_mem_eraseP hStep
      · rwa [Function.update_of_ne hProduce] at hStep
    · rwa [Function.update_of_ne hConsume] at hStep

omit [DecidableEq P] [DecidableEq K] in
theorem binds_of_removeBindings {m : MultisetMultiMap IOEvent COMM} {c : COMM} {e : IOEvent}
    (hBinds : (removeBindings m comm).Binds e c) : m.Binds e c := by
  rw [removeBindings] at hBinds
  generalize comm.ioEvents = events at hBinds
  induction events generalizing m with
  | nil => exact hBinds
  | cons head events ih => exact MultisetMultiMap.binds_of_removeBinding (ih hBinds)

omit [DecidableEq P] [DecidableEq K] in
theorem Replaying.removeBindingsFor (h : Replaying env store ops log st) (comm : COMM) :
    Replaying env store ops log (st.removeBindingsFor comm) where
  data := h.data
  waits := h.waits
  index hash ph c hMem := h.index hash ph c (mem_of_removeFromIndex hMem)
  replayData e c hBinds := h.replayData e c (binds_of_removeBindings hBinds)
  counter := h.counter

variable {s : HotStore C P A K}

omit [DecidableEq P] [DecidableEq K] in
theorem Replaying.after (h : Replaying env store ops log st) (hTraceable : Traceable env store ops log)
    (hOp : op ∈ ops) (hData : ∀ c, ∀ d ∈ s.storedData c, KnownDatum env store ops c d)
    (hWaits : ∀ cs, ∀ w ∈ (s.getContinuations cs).1, KnownWait env store ops cs w) :
    Replaying env store ops log (st.after env op s) where
  data := hData
  waits := hWaits
  index := h.index
  replayData := h.replayData
  counter _ _ hKnown hPersist := h.counterAfter hTraceable hOp hKnown hPersist

omit [DecidableEq P] [DecidableEq K] in
theorem Replaying.known_sameView (h : Replaying env store ops log st) (hView : SameView s st.store) :
    (∀ c, ∀ d ∈ s.storedData c, KnownDatum env store ops c d) ∧
    ∀ cs, ∀ w ∈ (s.getContinuations cs).1, KnownWait env store ops cs w := by
  refine ⟨fun c d hMem => h.data c d (hView.data c ▸ hMem), fun cs w hMem => h.waits cs w ?_⟩
  rwa [getContinuations, hView.continuations, installed, hView.installed] at hMem

variable (env) in
theorem known_keep (hOp : op ∈ ops) (hData : ∀ c, ∀ d ∈ s.storedData c, KnownDatum env store ops c d)
    (hWaits : ∀ cs, ∀ w ∈ (s.getContinuations cs).1, KnownWait env store ops cs w) :
    (∀ c, ∀ d ∈ (keep env s op).storedData c, KnownDatum env store ops c d) ∧
    ∀ cs, ∀ w ∈ ((keep env s op).getContinuations cs).1, KnownWait env store ops cs w := by
  cases op with
  | consume channels patterns continuation persist peeks =>
    refine ⟨fun c d hMem => hData c d (by rwa [keep, storedData_storeWaitingContinuation] at hMem),
      fun cs w hMem => ?_⟩
    rw [keep, getContinuations, installed_storeWaitingContinuation,
      storedContinuations_storeWaitingContinuation] at hMem
    split_ifs at hMem with hSame
    · rw [insertContinuation] at hMem
      split_ifs at hMem
      · exact hWaits cs w hMem
      · rcases List.mem_append.mp hMem with hInstalled | hStored
        · exact hWaits cs w (List.mem_append_left _ hInstalled)
        · rcases List.mem_cons.mp hStored with rfl | hStored
          · subst hSame
            exact .inr ⟨patterns, continuation, persist, peeks, hOp, rfl⟩
          · exact hWaits cs w (List.mem_append_right _ hStored)
    · exact hWaits cs w hMem
  | produce channel data persist =>
    refine ⟨fun c d hMem => ?_, fun cs w hMem => hWaits cs w hMem⟩
    rw [keep, putDatum, storedData_withData] at hMem
    split_ifs at hMem with hSame
    · subst hSame
      rcases List.mem_cons.mp hMem with rfl | hMem
      · exact .inr ⟨data, persist, hOp, rfl⟩
      · exact hData _ d hMem
    · exact hData c d hMem

theorem Replaying.step (h : Replaying env store ops log st) (hTraceable : Traceable env store ops log)
    (hOp : op ∈ ops) (hAccepted : Accepted op) (ord : HashOrder) :
    ∃ result st', st.step env ord op = .ok (result, st') ∧ Replaying env store ops log st' := by
  have hOutcome := step_outcome env ord st hAccepted
  generalize st.step env ord op = r at hOutcome
  cases hOutcome with
  | fired comms comm pc s hRecorded hMem hCandidate hTrace hView =>
    obtain ⟨hData, hWaits⟩ := h.known_sameView hView
    have hWithin := within_retire pc s op
    refine ⟨_, _, rfl, (h.after hTraceable hOp (fun c d hd => ?_) fun cs w hw => ?_).removeBindingsFor _⟩
    · exact hData c d ((hWithin.data c).subset hd)
    · exact hWaits cs w (hWithin.getContinuations hw)
  | kept s hNone hView =>
    obtain ⟨hData, hWaits⟩ := h.known_sameView hView
    obtain ⟨hData', hWaits'⟩ := known_keep env hOp hData hWaits
    exact ⟨_, _, rfl, h.after hTraceable hOp hData' hWaits'⟩
  | panicked comms comm pc hRecorded hMem hCandidate hTrace =>
    exact absurd ⟨comm, hMem, (h.identity_reproduced hTraceable hOp hRecorded hMem hCandidate).symm⟩ hTrace

theorem Replaying.run (hTraceable : Traceable env store ops log) {calls : List (Op C P A K × HashOrder)}
    (hOps : ∀ call ∈ calls, call.1 ∈ ops ∧ Accepted call.1) (h : Replaying env store ops log st) :
    ∃ results st', ReplayRSpace.run env calls st = .ok (results, st') ∧ Replaying env store ops log st' := by
  induction calls generalizing st with
  | nil => exact ⟨[], st, rfl, h⟩
  | cons call calls ih =>
    obtain ⟨op, ord⟩ := call
    obtain ⟨⟨hOp, hAccepted⟩, hRest⟩ := List.forall_mem_cons.mp hOps
    obtain ⟨result, st₁, hStep, h₁⟩ := h.step hTraceable hOp hAccepted ord
    obtain ⟨results, st', hRun, h'⟩ := ih hRest h₁
    refine ⟨result :: results, st', ?_, h'⟩
    rewrite [ReplayRSpace.run, hStep]
    dsimp only [Bind.bind, Except.bind]
    rw [hRun]
    rfl

end step

/-- Every operation of a replay returns when the log is traceable for the operations and the store
in which they start. -/
theorem replay_returns [DecidableEq P] [DecidableEq K] (env : SpaceEnv C P A K) (store : HotStore C P A K)
    (log : Log) (calls : List (Op C P A K × HashOrder)) (hAccepted : ∀ call ∈ calls, Accepted call.1)
    (hTraceable : Traceable env store (calls.map Prod.fst) log) :
    ∃ results st', ReplayRSpace.run env calls (rigAndReset store log) = .ok (results, st') := by
  obtain ⟨results, st', hRun, -⟩ := Replaying.run hTraceable
    (fun call hMem => ⟨List.mem_map_of_mem hMem, hAccepted call hMem⟩)
    (replaying_rigAndReset env store (calls.map Prod.fst) log)
  exact ⟨results, st', hRun⟩

def sampleCalls : List (Op Nat Nat Nat Nat × HashOrder) :=
  [(.produce 7 1 false, .refl), (.consume [7] [0] 0 false ∅, .refl)]

/-- The log of the two operations, with the peeks that the proposer claims for the COMM. -/
def logWithPeeks (peeks : Finset Int) : Log :=
  let p := Produce.create sampleEnv 7 1 false
  let c := Consume.create sampleEnv [7] [0] 0 false
  [.ioEvent (.produce p), .ioEvent (.consume c), .comm (COMM.new [p] c peeks fun _ => 1)]

theorem traceable_sample : Traceable sampleEnv emptySpace.store (sampleCalls.map Prod.fst) (logWithPeeks ∅) := by
  have hDatum : ∀ c d, KnownDatum sampleEnv emptySpace.store (sampleCalls.map Prod.fst) c d →
      c = 7 ∧ d = datumOf sampleEnv 7 1 false := by
    rintro c d (hStored | ⟨data, persist, hOp, rfl⟩)
    · cases hStored
    · simp only [sampleCalls, List.map_cons, List.map_nil, List.mem_cons, Op.produce.injEq, reduceCtorEq,
        List.not_mem_nil, or_false] at hOp
      obtain ⟨rfl, rfl, rfl⟩ := hOp
      exact ⟨rfl, rfl⟩
  have hNotPersistent : ∀ c d, KnownDatum sampleEnv emptySpace.store (sampleCalls.map Prod.fst) c d →
      d.persist ≠ true := by
    intro c d hKnown
    rw [(hDatum c d hKnown).2]
    exact Bool.false_ne_true
  refine ⟨fun comm hLog channels w hWait _ => ?_, fun c d hKnown hPersist =>
    absurd hPersist (hNotPersistent c d hKnown)⟩
  obtain rfl : comm = COMM.new [Produce.create sampleEnv 7 1 false]
      (Consume.create sampleEnv [7] [0] 0 false) ∅ fun _ => 1 := by
    simpa [logWithPeeks] using hLog
  obtain ⟨rfl, rfl⟩ : channels = [7] ∧ w = waiting sampleEnv [7] [0] 0 false ∅ := by
    rcases hWait with hStored | ⟨patterns, continuation, persist, peeks, hOp, rfl⟩
    · cases hStored
    · simp only [sampleCalls, List.map_cons, List.map_nil, List.mem_cons, Op.consume.injEq, reduceCtorEq,
        List.not_mem_nil, or_false, false_or] at hOp
      obtain ⟨rfl, rfl, rfl, rfl, rfl⟩ := hOp
      exact ⟨rfl, rfl⟩
  refine ⟨rfl, rfl, ⟨fun _ => Produce.create sampleEnv 7 1 false, rfl, fun c _ d hKnown _ => ?_⟩,
    fun h hSome => ?_, fun c _ d hKnown hPersist => absurd hPersist (hNotPersistent c d hKnown)⟩
  · rw [(hDatum c d hKnown).2]
    rfl
  · rw [COMM.new, lookup_produceCounters] at hSome
    split_ifs at hSome with hMem
    · exact hMem
    · cases hSome

theorem replay_sample_returns :
    ∃ results st', ReplayRSpace.run sampleEnv sampleCalls (rigAndReset emptySpace.store (logWithPeeks ∅)) =
      .ok (results, st') :=
  replay_returns sampleEnv emptySpace.store (logWithPeeks ∅) sampleCalls (by decide) traceable_sample

/-- A proposer that claims a peek for the COMM makes the replay panic. -/
theorem replay_forgedPeeks_panics :
    (∀ call ∈ sampleCalls, Accepted call.1) ∧ ∃ comm comms,
      ReplayRSpace.run sampleEnv sampleCalls (rigAndReset emptySpace.store (logWithPeeks {0})) =
        .error (.commNotInTrace comm comms) :=
  ⟨by decide, _, _, rfl⟩

end F1r3Node.Space.ReplayRSpace
