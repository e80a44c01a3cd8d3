import F1r3Node.Space.ReplayRSpace
import F1r3Node.Space.RSpaceSpec

/-! # What one operation of the replaying space does

If the matcher finds candidates for one of them, the operation fires when the COMM of the candidates is recorded and
panics when it is not; in every other case it keeps what it was given.
-/

namespace F1r3Node.Space

open Shared Lib HotStore RSpace

namespace ReplayRSpace

variable {C P A K : Type} [DecidableEq C]

variable {comm c : COMM} {h ph : Bytes}

theorem mem_addToIndex {index : ConsumeReplayIndex} {p : Produce} :
    c ∈ addToIndex index comm p h ph ↔
      c ∈ index h ph ∨ c = comm ∧ comm.consume.hash = h ∧ p.hash = ph := by
  rw [addToIndex]
  by_cases hConsume : h = comm.consume.hash
  · subst hConsume
    rw [Function.update_self]
    by_cases hProduce : ph = p.hash
    · subst hProduce
      simp
    · rw [Function.update_of_ne hProduce]
      simp [Ne.symm hProduce]
  · rw [Function.update_of_ne hConsume]
    simp [Ne.symm hConsume]

theorem mem_foldl_addToIndex {index : ConsumeReplayIndex} {ps : List Produce} :
    c ∈ ps.foldl (fun index p => addToIndex index comm p) index h ph ↔
      c ∈ index h ph ∨ c = comm ∧ comm.consume.hash = h ∧ ∃ p ∈ ps, p.hash = ph := by
  induction ps generalizing index with
  | nil => simp
  | cons p ps ih =>
    rw [List.foldl_cons, ih, mem_addToIndex]
    simp only [List.mem_cons, exists_eq_or_imp]
    tauto

theorem mem_filterMap_comm {log : Log} :
    comm ∈ log.filterMap Event.comm? ↔ .comm comm ∈ log := by
  rw [List.mem_filterMap]
  constructor
  · rintro ⟨e, he, hComm⟩
    cases e with
    | comm c => rwa [← Option.some.inj hComm]
    | ioEvent e => cases hComm
  · exact fun h => ⟨_, h, rfl⟩

theorem mem_rigIndex_iff {log : Log} :
    c ∈ rigIndex log h ph ↔ .comm c ∈ log ∧ c.consume.hash = h ∧ ∃ p ∈ c.produces, p.hash = ph := by
  have hFold : ∀ (comms : List COMM) (index : ConsumeReplayIndex),
      c ∈ comms.foldl (fun index comm =>
        comm.produces.foldl (fun index p => addToIndex index comm p) index) index h ph ↔
      c ∈ index h ph ∨ c ∈ comms ∧ c.consume.hash = h ∧ ∃ p ∈ c.produces, p.hash = ph := by
    intro comms
    induction comms with
    | nil => simp
    | cons comm comms ih =>
      intro index
      rw [List.foldl_cons, ih, mem_foldl_addToIndex, List.mem_cons]
      constructor
      · rintro ((hIndex | ⟨rfl, hRest⟩) | ⟨hMem, hRest⟩)
        · exact .inl hIndex
        · exact .inr ⟨.inl rfl, hRest⟩
        · exact .inr ⟨.inr hMem, hRest⟩
      · rintro (hIndex | ⟨rfl | hMem, hRest⟩)
        · exact .inl (.inl hIndex)
        · exact .inl (.inr ⟨rfl, hRest⟩)
        · exact .inr ⟨hMem, hRest⟩
  rw [rigIndex, hFold, mem_filterMap_comm]
  simp

variable {comms : List COMM}

theorem any_beq_iff :
    comms.any (· == comm) = true ↔ ∃ c ∈ comms, c.identity = comm.identity := by
  simp

variable {out : List COMM}

theorem mem_pushDistinct (h : c ∈ pushDistinct out comm) :
    c ∈ out ∨ c = comm := by
  rw [pushDistinct] at h
  split_ifs at h
  · exact .inl h
  · simpa using h

theorem exists_mem_pushDistinct
    (h : (∃ c' ∈ out, c'.identity = c.identity) ∨ c = comm) :
    ∃ c' ∈ pushDistinct out comm, c'.identity = c.identity := by
  rw [pushDistinct]
  by_cases hAny : out.any (· == comm) = true
  · rw [if_pos hAny]
    rcases h with hOut | rfl
    · exact hOut
    · exact any_beq_iff.mp hAny
  · rw [if_neg hAny]
    rcases h with ⟨c', hOut, hSame⟩ | rfl
    · exact ⟨c', List.mem_append_left _ hOut, hSame⟩
    · exact ⟨c, List.mem_append_right _ (List.mem_singleton.mpr rfl), rfl⟩

theorem mem_foldl_pushDistinct (h : c ∈ comms.foldl pushDistinct out) :
    c ∈ out ∨ c ∈ comms := by
  induction comms generalizing out with
  | nil => exact .inl h
  | cons comm comms ih =>
    rcases ih h with hOut | hMem
    · rcases mem_pushDistinct hOut with hOut | rfl
      · exact .inl hOut
      · exact .inr List.mem_cons_self
    · exact .inr (List.mem_cons_of_mem _ hMem)

theorem exists_mem_foldl_pushDistinct
    (h : (∃ c' ∈ out, c'.identity = c.identity) ∨ c ∈ comms) :
    ∃ c' ∈ comms.foldl pushDistinct out, c'.identity = c.identity := by
  induction comms generalizing out with
  | nil => exact h.resolve_right List.not_mem_nil
  | cons comm comms ih =>
    apply ih
    rcases h with hOut | hMem
    · exact .inl (exists_mem_pushDistinct (.inl hOut))
    · rcases List.mem_cons.mp hMem with rfl | hMem
      · exact .inl (exists_mem_pushDistinct (.inr rfl))
      · exact .inr hMem

theorem mem_distinctComms (h : c ∈ distinctComms comms) : c ∈ comms :=
  (mem_foldl_pushDistinct h).resolve_left List.not_mem_nil

theorem exists_mem_distinctComms (h : c ∈ comms) :
    ∃ c' ∈ distinctComms comms, c'.identity = c.identity :=
  exists_mem_foldl_pushDistinct (.inr h)

/-- The state in which the matcher of an operation runs: the produce is already counted. -/
def logged (env : SpaceEnv C P A K) (st : ReplayRSpace C P A K) (op : Op C P A K) : ReplayRSpace C P A K :=
  { st with produceCounter := counterAfter env st.produceCounter op }

def recorded (env : SpaceEnv C P A K) (ord : HashOrder) (st : ReplayRSpace C P A K) :
    Op C P A K → Option (List COMM)
  | .consume channels patterns continuation persist _ =>
    if st.presentProduceHashes channels = [] then none
    else st.consumeComms ord (Consume.create env channels patterns continuation persist)
      (st.presentProduceHashes channels)
  | .produce channel data persist =>
    (st.replayData.get? (.produce (Produce.create env channel data persist))).map ord.comms

def candidate (env : SpaceEnv C P A K) (st : ReplayRSpace C P A K) (op : Op C P A K) (comm : COMM) :
    Option (ProduceCandidate C P A K) :=
  match op with
  | .consume channels patterns continuation persist peeks =>
    (st.runMatcherConsume env (channels.zip patterns) comm).map fun cands =>
      ⟨channels, waiting env channels patterns continuation persist peeks, 0, cands⟩
  | .produce channel data persist =>
    ((logged env st op).runMatcherProduce env channel (datumOf env channel data persist) comm
      (st.store.getJoins channel).1 st.store).1

def reproduced (env : SpaceEnv C P A K) (st : ReplayRSpace C P A K) (op : Op C P A K)
    (pc : ProduceCandidate C P A K) : COMM :=
  commOf pc (counterAfter env st.produceCounter op)

def after (env : SpaceEnv C P A K) (st : ReplayRSpace C P A K) (op : Op C P A K)
    (s : HotStore C P A K) : ReplayRSpace C P A K :=
  { st with store := s, produceCounter := counterAfter env st.produceCounter op }

inductive Outcome [DecidableEq P] [DecidableEq K] (env : SpaceEnv C P A K) (ord : HashOrder)
    (st : ReplayRSpace C P A K) (op : Op C P A K) :
    Except Panic (MaybeConsumeResult C P A K × ReplayRSpace C P A K) → Prop
  | fired (comms : List COMM) (comm : COMM) (pc : ProduceCandidate C P A K) (s : HotStore C P A K)
      (hRecorded : recorded env ord st op = some comms) (hMem : comm ∈ comms)
      (hCandidate : candidate env st op comm = some pc)
      (hTrace : ∃ c ∈ comms, c.identity = (reproduced env st op pc).identity)
      (hView : SameView s st.store) :
      Outcome env ord st op (.ok (some (wrapResult pc.channels pc.continuation pc.dataCandidates),
        (after env st op (retire pc s op)).removeBindingsFor (reproduced env st op pc)))
  | kept (s : HotStore C P A K)
      (hNone : ∀ comms, recorded env ord st op = some comms →
        ∀ comm ∈ comms, candidate env st op comm = none)
      (hView : SameView s st.store) :
      Outcome env ord st op (.ok (none, after env st op (keep env s op)))
  | panicked (comms : List COMM) (comm : COMM) (pc : ProduceCandidate C P A K)
      (hRecorded : recorded env ord st op = some comms) (hMem : comm ∈ comms)
      (hCandidate : candidate env st op comm = some pc)
      (hTrace : ¬ ∃ c ∈ comms, c.identity = (reproduced env st op pc).identity) :
      Outcome env ord st op (.error (.commNotInTrace (reproduced env st op pc) comms))

theorem get?_ne_nil {m : MultisetMultiMap IOEvent COMM} {e : IOEvent} {ord : HashOrder}
    (h : (m.get? e).map ord.comms = some comms) : comms ≠ [] := by
  obtain ⟨values, hGet, rfl⟩ := Option.map_eq_some_iff.mp h
  rw [MultisetMultiMap.get?] at hGet
  split_ifs at hGet with hNil
  obtain rfl := Option.some.inj hGet
  exact fun hEmpty => hNil (List.perm_nil.mp (hEmpty ▸ (ord.perm_comms _).symm))

section

variable {env : SpaceEnv C P A K} {ord : HashOrder}

variable {st : ReplayRSpace C P A K} {op : Op C P A K} {comms : List COMM}

theorem recorded_ne_nil
    (h : recorded env ord st op = some comms) : comms ≠ [] := by
  cases op with
  | consume channels patterns continuation persist peeks =>
    rw [recorded] at h
    split_ifs at h
    rw [consumeComms] at h
    split_ifs at h with hNarrowed
    · obtain rfl := Option.some.inj h
      exact hNarrowed
    · exact get?_ne_nil h
  | produce channel data persist => exact get?_ne_nil h

variable [DecidableEq P] [DecidableEq K]

theorem finishConsume_outcome {channels : List C} {patterns : List P}
    {continuation : K} {persist : Bool} {peeks : Finset Int} {comm : COMM}
    {cands : List (ConsumeCandidate C A)} {s : HotStore C P A K}
    (hRecorded : recorded env ord st (.consume channels patterns continuation persist peeks) = some comms)
    (hMem : comm ∈ comms) (hCands : st.runMatcherConsume env (channels.zip patterns) comm = some cands)
    (hView : SameView s st.store) :
    Outcome env ord st (.consume channels patterns continuation persist peeks)
      ({ st with store := s }.finishConsume channels
        (waiting env channels patterns continuation persist peeks) comms cands) := by
  have hCandidate : candidate env st (.consume channels patterns continuation persist peeks) comm =
      some ⟨channels, waiting env channels patterns continuation persist peeks, 0, cands⟩ := by
    rewrite [candidate, hCands]
    rfl
  rw [finishConsume]
  simp only
  split_ifs with hAny
  · exact Outcome.fired comms comm _ s hRecorded hMem hCandidate (any_beq_iff.mp hAny) hView
  · exact Outcome.panicked comms comm _ hRecorded hMem hCandidate fun h => hAny (any_beq_iff.mpr h)

theorem lockedConsume_outcome (st : ReplayRSpace C P A K) (channels : List C) (patterns : List P)
    (continuation : K) (persist : Bool) (peeks : Finset Int) :
    Outcome env ord st (.consume channels patterns continuation persist peeks)
      (st.lockedConsume env ord channels patterns continuation persist peeks
        (Consume.create env channels patterns continuation persist)) := by
  have hView := sameView_fillData st.store channels
  rw [lockedConsume]
  split_ifs with hPresent
  · refine Outcome.kept _ (fun comms hComms => ?_) hView
    rw [recorded, if_pos hPresent] at hComms
    cases hComms
  · split
    next hComms =>
      refine Outcome.kept _ (fun comms hComms' => ?_) hView
      rw [recorded, if_neg hPresent, hComms] at hComms'
      cases hComms'
    next comms hComms =>
      have hRecorded : recorded env ord st (.consume channels patterns continuation persist peeks) =
          some comms := by
        rw [recorded, if_neg hPresent, hComms]
      rw [getCommOrCandidate, if_neg (recorded_ne_nil hRecorded)]
      cases hFound : comms.findSome? fun comm =>
          (st.runMatcherConsume env (channels.zip patterns) comm).map fun cands => (comm, cands) with
      | none =>
        refine Outcome.kept _ (fun comms' hComms' comm hMem => ?_) hView
        obtain rfl := Option.some.inj (hRecorded.symm.trans hComms')
        have hNone := List.findSome?_eq_none_iff.mp hFound comm hMem
        rewrite [candidate, Option.map_eq_none_iff.mp hNone]
        rfl
      | some found =>
        obtain ⟨comm, cands⟩ := found
        obtain ⟨comm', hMem, hMap⟩ := List.exists_of_findSome?_eq_some hFound
        obtain ⟨cands', hCands, hEq⟩ := Option.map_eq_some_iff.mp hMap
        obtain ⟨rfl, rfl⟩ := Prod.mk.inj hEq
        exact finishConsume_outcome hRecorded hMem hCands hView

omit [DecidableEq P] [DecidableEq K] in
theorem getCommOrProduceCandidate_fst (st : ReplayRSpace C P A K) (channel : C) (datum : Datum A)
    (groupedChannels : List (List C)) (comms : List COMM) (s t : HotStore C P A K) :
    (st.getCommOrProduceCandidate env channel datum groupedChannels comms s).1 =
      comms.findSome? fun comm =>
        (st.runMatcherProduce env channel datum comm groupedChannels t).1.map fun pc => (comm, pc) := by
  induction comms generalizing s with
  | nil => rfl
  | cons comm comms ih =>
    have hSame : (st.runMatcherProduce env channel datum comm groupedChannels s).1 =
        (st.runMatcherProduce env channel datum comm groupedChannels t).1 := runMatcher_fst _ _ _ _
    rw [getCommOrProduceCandidate, List.findSome?_cons, ← hSame]
    cases (st.runMatcherProduce env channel datum comm groupedChannels s).1 with
    | none => exact ih _
    | some pc => rfl

omit [DecidableEq P] [DecidableEq K] in
theorem sameView_getCommOrProduceCandidate (st : ReplayRSpace C P A K) (channel : C) (datum : Datum A)
    (groupedChannels : List (List C)) (comms : List COMM) (s : HotStore C P A K) :
    SameView (st.getCommOrProduceCandidate env channel datum groupedChannels comms s).2 s := by
  induction comms generalizing s with
  | nil => exact .refl s
  | cons comm comms ih =>
    have hView : SameView (st.runMatcherProduce env channel datum comm groupedChannels s).2 s :=
      sameView_runMatcher _ _ _
    rw [getCommOrProduceCandidate]
    cases (st.runMatcherProduce env channel datum comm groupedChannels s).1 with
    | none => exact (ih _).trans hView
    | some pc => exact hView

omit [DecidableEq P] [DecidableEq K] in
theorem handleMatch_eq (st : ReplayRSpace C P A K) (pc : ProduceCandidate C P A K) (comms : List COMM) :
    ((∃ c ∈ comms, c.identity = (commOf pc st.produceCounter).identity) → st.handleMatch pc comms =
      .ok (wrapResult pc.channels pc.continuation pc.dataCandidates,
        { st with store := (removeMatchedDatumAndJoin pc.channels pc.dataCandidates
            (if pc.continuation.persist then st.store
              else st.store.removeContinuation pc.channels pc.continuationIndex)) }.removeBindingsFor
          (commOf pc st.produceCounter))) ∧
    ((¬ ∃ c ∈ comms, c.identity = (commOf pc st.produceCounter).identity) → st.handleMatch pc comms =
      .error (.commNotInTrace (commOf pc st.produceCounter) comms)) := by
  constructor
  · intro hTrace
    exact if_pos (any_beq_iff.mpr hTrace)
  · intro hTrace
    exact if_neg fun hAny => hTrace (any_beq_iff.mp hAny)

def dropProduce (r : MaybeProduceResult C P A K × ReplayRSpace C P A K) :
    MaybeConsumeResult C P A K × ReplayRSpace C P A K :=
  (r.1.map fun found => (found.1, found.2.1), r.2)

theorem finishProduce_outcome {channel : C} {data : A} {persist : Bool}
    {s : HotStore C P A K} (hView : SameView s st.store)
    (hRecorded : recorded env ord st (.produce channel data persist) = some comms) :
    Outcome env ord st (.produce channel data persist)
      (((after env st (.produce channel data persist) s).finishProduce channel
        (datumOf env channel data persist) comms
        (comms.findSome? fun comm =>
          (candidate env st (.produce channel data persist) comm).map fun pc => (comm, pc))).map
        dropProduce) := by
  cases hFound : comms.findSome? fun comm =>
      (candidate env st (.produce channel data persist) comm).map fun pc => (comm, pc) with
  | none =>
    refine Outcome.kept s (fun comms' hComms' comm hMem => ?_) hView
    obtain rfl := Option.some.inj (hRecorded.symm.trans hComms')
    exact Option.map_eq_none_iff.mp (List.findSome?_eq_none_iff.mp hFound comm hMem)
  | some found =>
    obtain ⟨comm, pc⟩ := found
    obtain ⟨comm', hMem, hMap⟩ := List.exists_of_findSome?_eq_some hFound
    obtain ⟨pc', hCandidate, hEq⟩ := Option.map_eq_some_iff.mp hMap
    obtain ⟨rfl, rfl⟩ := Prod.mk.inj hEq
    rw [finishProduce]
    have hMatch := handleMatch_eq (after env st (.produce channel data persist) s) pc' comms
    by_cases hTrace : ∃ c ∈ comms, c.identity =
        (reproduced env st (.produce channel data persist) pc').identity
    · rw [hMatch.1 hTrace]
      exact Outcome.fired comms _ _ s hRecorded hMem hCandidate hTrace hView
    · rw [hMatch.2 hTrace]
      exact Outcome.panicked comms _ _ hRecorded hMem hCandidate hTrace

variable (env ord) in
theorem produce_outcome (st : ReplayRSpace C P A K) (channel : C) (data : A) (persist : Bool) :
    Outcome env ord st (.produce channel data persist)
      ((st.produce env ord channel data persist).map dropProduce) := by
  have hJoins := sameView_getJoins st.store channel
  rw [produce, lockedProduce]
  simp only
  split
  next hNone =>
    refine Outcome.kept _ (fun comms hComms => ?_) hJoins
    rw [recorded, hNone] at hComms
    cases hComms
  next comms hComms =>
    rw [if_neg (get?_ne_nil hComms)]
    rw [getCommOrProduceCandidate_fst _ _ _ _ _ _ st.store]
    exact finishProduce_outcome ((sameView_getCommOrProduceCandidate _ _ _ _ _ _).trans hJoins) hComms

variable (env ord) in
theorem step_outcome (st : ReplayRSpace C P A K) (hAccepted : Accepted op) :
    Outcome env ord st op (st.step env ord op) := by
  cases op with
  | consume channels patterns continuation persist peeks =>
    rw [step, consume, if_neg hAccepted.1, if_neg (not_not.mpr hAccepted.2)]
    exact lockedConsume_outcome st channels patterns continuation persist peeks
  | produce channel data persist =>
    have hOutcome := produce_outcome env ord st channel data persist
    rw [step]
    cases hProduce : st.produce env ord channel data persist with
    | error panic =>
      rw [hProduce] at hOutcome
      exact hOutcome
    | ok r =>
      rw [hProduce] at hOutcome
      exact hOutcome

theorem accepted_of_step
    {r : MaybeConsumeResult C P A K × ReplayRSpace C P A K} (hStep : st.step env ord op = .ok r) :
    Accepted op := by
  cases op with
  | consume channels patterns continuation persist peeks =>
    rw [step, consume] at hStep
    split_ifs at hStep with hEmpty hLength
    exact ⟨hEmpty, not_not.mp hLength⟩
  | produce channel data persist => trivial

end

end ReplayRSpace

end F1r3Node.Space
