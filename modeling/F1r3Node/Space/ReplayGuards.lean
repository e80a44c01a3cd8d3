import F1r3Node.Space.ReplayRSpaceSpec
import F1r3Node.Space.MatchedData

/-! # Guards under replay

A consume on replay does not ask it: a recorded COMM that lists the right produces is enough, so a log can make it
fire on data that its guard rejects.
-/

namespace F1r3Node.Space

open HotStore RSpace ReplayRSpace

variable {C P A K : Type} [DecidableEq C] {env : SpaceEnv C P A K}

def GuardAccepts (env : SpaceEnv C P A K) (result : ContResult C P K × List (RSpaceResult C A)) : Prop :=
  env.checkCommit result.1.continuation (result.2.map RSpaceResult.matchedDatum) = true

def NeverVetoed (env : SpaceEnv C P A K) : Op C P A K → Prop
  | .consume channels patterns continuation _ _ =>
    channels ≠ [] → channels.length = patterns.length → ∀ matched,
      List.Forall₂ (fun p m => ∃ a, env.get p a = some m) patterns matched →
      env.checkCommit continuation matched = true
  | .produce .. => True

omit [DecidableEq C] in
theorem guardAccepts_wrapResult {pc : ProduceCandidate C P A K} :
    GuardAccepts env (wrapResult pc.channels pc.continuation pc.dataCandidates) ↔
      env.checkCommit pc.continuation.continuation (matchedData pc.dataCandidates) = true := by
  rw [GuardAccepts, wrapResult, List.map_map]
  rfl

theorem matched_of_extract {channels : List C} {patterns : List P} {data : C → IndexedData A}
    {cands : List (ConsumeCandidate C A)} (hLength : channels.length = patterns.length)
    (hExtract : extractDataCandidates env (channels.zip patterns) data = some cands) :
    List.Forall₂ (fun p m => ∃ a, env.get p a = some m) patterns (matchedData cands) := by
  have hOffered := offered_of_extract hExtract
  have hPatterns : (channels.zip patterns).map Prod.snd = patterns := List.map_snd_zip hLength.ge
  rw [← hPatterns, matchedData, List.forall₂_map_left_iff, List.forall₂_map_right_iff]
  exact hOffered.imp fun pair cand h => ⟨cand.removedDatum, h.matches_eq⟩

theorem guard_of_candidate {st : ReplayRSpace C P A K} {op : Op C P A K} {comm : COMM}
    {pc : ProduceCandidate C P A K} (hAccepted : Accepted op) (hTotal : NeverVetoed env op)
    (hCandidate : candidate env st op comm = some pc) :
    env.checkCommit pc.continuation.continuation (matchedData pc.dataCandidates) = true := by
  cases op with
  | consume channels patterns continuation persist peeks =>
    obtain ⟨cands, hCands, rfl⟩ := Option.map_eq_some_iff.mp hCandidate
    exact hTotal hAccepted.1 hAccepted.2 _ (matched_of_extract hAccepted.2 hCands)
  | produce channel data persist =>
    obtain ⟨n, channels, -, hFirst⟩ := exists_of_runMatcher hCandidate
    exact (firstMatch_of_extract hFirst).commit

/-- One bind of a join with the datum it is to match and the match. -/
structure JoinBind (C P A : Type) where
  channel : C
  pattern : P
  datum : A
  matched : A

namespace JoinBind

variable (env)

def stored (b : JoinBind C P A) : Datum A := datumOf env b.channel b.datum false

def store (binds : List (JoinBind C P A)) : HotStore C P A K :=
  createFromHr ⟨fun c => (binds.filter fun b => b.channel = c).map (stored env), fun _ => [], fun _ => []⟩

end JoinBind

omit [DecidableEq C] in
theorem exists_binds {channels : List C} {patterns : List P} {matched : List A}
    (hLength : channels.length = patterns.length)
    (hMatched : List.Forall₂ (fun p m => ∃ a, env.get p a = some m) patterns matched) :
    ∃ binds : List (JoinBind C P A), binds.map JoinBind.channel = channels ∧ binds.map JoinBind.pattern = patterns ∧
      binds.map JoinBind.matched = matched ∧ ∀ b ∈ binds, env.get b.pattern b.datum = some b.matched := by
  induction hMatched generalizing channels with
  | nil => exact ⟨[], (List.length_eq_zero_iff.mp hLength).symm, rfl, rfl, by simp⟩
  | @cons p m patterns matched hHead _ ih =>
    cases channels with
    | nil => cases hLength
    | cons c channels =>
      obtain ⟨a, hGet⟩ := hHead
      obtain ⟨binds, rfl, rfl, rfl, hBinds⟩ := ih (Nat.succ.inj hLength)
      exact ⟨⟨c, p, a, m⟩ :: binds, rfl, rfl, rfl, List.forall_mem_cons.mpr ⟨hGet, hBinds⟩⟩

theorem extract_of_aligned {binds : List (JoinBind C P A)} {data : C → IndexedData A}
    (hData : ∀ c, (data c).map Prod.fst = (binds.filter fun b => b.channel = c).map (JoinBind.stored env))
    (hGet : ∀ b ∈ binds, env.get b.pattern b.datum = some b.matched) :
    ∃ cands, extractDataCandidates env (binds.map fun b => (b.channel, b.pattern)) data = some cands ∧
      matchedData cands = binds.map JoinBind.matched ∧
      sources cands = binds.map fun b => (b.stored env).source := by
  induction binds generalizing data with
  | nil => exact ⟨[], rfl, rfl, rfl⟩
  | cons b binds ih =>
    obtain ⟨hHead, hTail⟩ := List.forall_mem_cons.mp hGet
    have hOwn := hData b.channel
    rw [List.filter_cons, if_pos (by simp), List.map_cons] at hOwn
    obtain ⟨⟨d, index⟩, rest, hCons, hFst, hRest⟩ := List.map_eq_cons_iff.mp hOwn
    obtain rfl : d = b.stored env := hFst
    have hNext : ∀ c, (Function.update data b.channel rest c).map Prod.fst =
        (binds.filter fun b => b.channel = c).map (JoinBind.stored env) := by
      intro c
      by_cases hSame : c = b.channel
      · subst hSame
        rw [Function.update_self, hRest]
      · have hOther := hData c
        rw [List.filter_cons, if_neg (by simpa using Ne.symm hSame)] at hOther
        rw [Function.update_of_ne hSame, hOther]
    obtain ⟨cands, hExtract, hMatched, hSources⟩ := ih hNext hTail
    have hFind : findMatchingDataCandidate env b.channel b.pattern (data b.channel) =
        some (⟨b.channel, ⟨b.matched, false, (b.stored env).source⟩, b.datum, index⟩, rest) := by
      rw [hCons, findMatchingDataCandidate]
      have hSome : env.get b.pattern (b.stored env).a = some b.matched := hHead
      simp only [hSome]
      rfl
    refine ⟨_, extract_cons_eq_some.mpr ⟨_, _, _, hFind, hExtract, rfl⟩, ?_, ?_⟩
    · rw [List.map_cons, ← hMatched]
      rfl
    · rw [List.map_cons, ← hSources]
      rfl

section forged

variable (env)

def forgedComm (binds : List (JoinBind C P A)) (continuation : K) (persist : Bool) (peeks : Finset Int) :
    COMM :=
  COMM.new (binds.map fun b => (b.stored env).source)
    (Consume.create env (binds.map JoinBind.channel) (binds.map JoinBind.pattern) continuation persist)
    peeks fun _ => 0

def forgedReplay (binds : List (JoinBind C P A)) (continuation : K) (persist : Bool)
    (peeks : Finset Int) : ReplayRSpace C P A K :=
  rigAndReset (JoinBind.store env binds) [.comm (forgedComm env binds continuation persist peeks)]

def forgedConsume (binds : List (JoinBind C P A)) (continuation : K) (persist : Bool)
    (peeks : Finset Int) : Op C P A K :=
  .consume (binds.map JoinBind.channel) (binds.map JoinBind.pattern) continuation persist peeks

variable {env} {binds : List (JoinBind C P A)} (continuation : K) (persist : Bool) (peeks : Finset Int)

omit [DecidableEq C] in
theorem takesPart_forgedComm {b : JoinBind C P A} (hMem : b ∈ binds) (persist' : Bool) :
    takesPart (forgedComm env binds continuation persist peeks) (fun _ => 0) (b.stored env).source
      persist' = true := by
  have hSource : (b.stored env).source ∈ sortProduces (binds.map fun b => (b.stored env).source) :=
    mem_sortProduces.mpr (List.mem_map_of_mem hMem)
  have hHash := List.mem_map_of_mem (f := Produce.hash) hSource
  rw [takesPart, Bool.and_eq_true]
  constructor
  · exact List.any_eq_true.mpr ⟨_, hSource, decide_eq_true rfl⟩
  · rw [forgedComm, COMM.new, lookup_produceCounters, if_pos hHash]
    simp

theorem candidate_forged (hGet : ∀ b ∈ binds, env.get b.pattern b.datum = some b.matched) :
    ∃ pc, candidate env (forgedReplay env binds continuation persist peeks)
        (forgedConsume binds continuation persist peeks)
        (forgedComm env binds continuation persist peeks) = some pc ∧
      matchedData pc.dataCandidates = binds.map JoinBind.matched ∧
      pc.continuation.continuation = continuation ∧
      commOf pc (fun _ => 0) = forgedComm env binds continuation persist peeks := by
  have hData : ∀ c, ((withIndex ((JoinBind.store env binds).storedData c)).filter fun d =>
      takesPart (forgedComm env binds continuation persist peeks) (fun _ => 0) d.1.source d.1.persist).map
        Prod.fst = (binds.filter fun b => b.channel = c).map (JoinBind.stored env) := by
    intro c
    rw [List.filter_eq_self.mpr]
    · rw [withIndex, List.map_map]
      exact List.zipIdx_map_fst 0 _
    · intro d hd
      obtain ⟨n, -, hItem⟩ := mem_withIndex.mp hd
      obtain ⟨b, hb, hEq⟩ := List.mem_map.mp (List.mem_of_getElem? hItem)
      rw [← hEq]
      exact takesPart_forgedComm continuation persist peeks (List.mem_filter.mp hb).1 _
  obtain ⟨cands, hExtract, hMatched, hSources⟩ := extract_of_aligned hData hGet
  have hZip : (binds.map JoinBind.channel).zip (binds.map JoinBind.pattern) =
      binds.map fun b => (b.channel, b.pattern) := List.zip_map' ..
  have hCandidate : candidate env (forgedReplay env binds continuation persist peeks)
      (forgedConsume binds continuation persist peeks)
      (forgedComm env binds continuation persist peeks) =
      some ⟨binds.map JoinBind.channel, waiting env (binds.map JoinBind.channel)
        (binds.map JoinBind.pattern) continuation persist peeks, 0, cands⟩ := by
    rewrite [forgedConsume, candidate, runMatcherConsume, hZip]
    exact congrArg (Option.map _) hExtract
  refine ⟨_, hCandidate, hMatched, rfl, ?_⟩
  change COMM.new (sources cands) _ _ _ = _
  rw [hSources]
  rfl

theorem present_forged {b : JoinBind C P A} (hMem : b ∈ binds) :
    (b.stored env).source.hash ∈ (forgedReplay env binds continuation persist peeks).presentProduceHashes
      (binds.map JoinBind.channel) := by
  rw [presentProduceHashes, List.mem_dedup]
  have hStored : b.stored env ∈ (JoinBind.store (K := K) env binds).storedData b.channel :=
    List.mem_map_of_mem (List.mem_filter.mpr ⟨hMem, decide_eq_true rfl⟩)
  exact List.mem_map_of_mem (f := fun d => d.source.hash)
    (List.mem_flatMap.mpr ⟨b.channel, List.mem_map_of_mem hMem, hStored⟩)

theorem recorded_forged (ord : HashOrder) (hBinds : binds ≠ []) :
    ∃ comms, recorded env ord (forgedReplay env binds continuation persist peeks)
        (forgedConsume binds continuation persist peeks) = some comms ∧
      forgedComm env binds continuation persist peeks ∈ comms ∧
      ∀ c ∈ comms, c = forgedComm env binds continuation persist peeks := by
  obtain ⟨b, hb⟩ := List.exists_mem_of_ne_nil binds hBinds
  set st := forgedReplay env binds continuation persist peeks with hSt
  set comm := forgedComm env binds continuation persist peeks with hComm
  set present := st.presentProduceHashes (binds.map JoinBind.channel) with hPresent
  have hHash : (b.stored env).source.hash ∈ present := present_forged continuation persist peeks hb
  set found := (ord.hashes present).flatMap (st.consumeReplayIndex comm.consume.hash) with hFound
  have hAll : ∀ c ∈ found, c = comm := by
    intro c hc
    obtain ⟨h, -, hIndex⟩ := List.mem_flatMap.mp hc
    obtain ⟨hLog, -⟩ := mem_rigIndex_iff.mp hIndex
    exact Event.comm.inj (List.mem_singleton.mp hLog)
  have hMem : comm ∈ found := by
    refine List.mem_flatMap.mpr ⟨_, (ord.perm_hashes present).mem_iff.mpr hHash, ?_⟩
    refine mem_rigIndex_iff.mpr ⟨List.mem_singleton.mpr rfl, rfl, (b.stored env).source, ?_, rfl⟩
    exact mem_sortProduces.mpr (List.mem_map_of_mem hb)
  obtain ⟨c, hc, -⟩ := exists_mem_distinctComms hMem
  have hNarrowed : distinctComms found ≠ [] := List.ne_nil_of_mem hc
  refine ⟨distinctComms found, ?_, ?_, fun c hc => hAll c (mem_distinctComms hc)⟩
  · change (if present = [] then none else st.consumeComms ord comm.consume present) = _
    rw [if_neg (List.ne_nil_of_mem hHash), consumeComms]
    exact if_pos hNarrowed
  · rwa [← hAll c (mem_distinctComms hc)]

end forged

variable [DecidableEq P] [DecidableEq K]

/-- Replay respects the guard of an operation, whatever log was rigged and whatever was executed
before, if and only if the operation is a produce or its guard accepts all that its patterns match. -/
theorem replay_guardAccepts_iff (env : SpaceEnv C P A K) (op : Op C P A K) :
    (∀ store log ops ord results st result st',
      ReplayRSpace.run env ops (rigAndReset store log) = .ok (results, st) →
      ReplayRSpace.step env ord st op = .ok (some result, st') → GuardAccepts env result) ↔
    NeverVetoed env op := by
  constructor
  · intro hSafe
    cases op with
    | produce channel data persist => trivial
    | consume channels patterns continuation persist peeks =>
      intro hChannels hLength matched hMatched
      obtain ⟨binds, rfl, rfl, rfl, hGet⟩ := exists_binds hLength hMatched
      obtain ⟨pc, hCandidate, hData, hContinuation, hComm⟩ :=
        candidate_forged continuation persist peeks hGet
      have hBinds : binds ≠ [] := fun h => hChannels (h ▸ rfl)
      obtain ⟨comms, hRecorded, hMem, hAll⟩ := recorded_forged continuation persist peeks .refl hBinds
      have hOutcome := ReplayRSpace.step_outcome env .refl
        (forgedReplay env binds continuation persist peeks)
        (show Accepted (forgedConsume binds continuation persist peeks) from ⟨hChannels, hLength⟩)
      generalize hStep : ReplayRSpace.step env .refl _ _ = r at hOutcome
      cases hOutcome with
      | fired comms' comm pc' s hRecorded' hMem' hCandidate' hTrace hView =>
        obtain rfl := Option.some.inj (hRecorded.symm.trans hRecorded')
        rw [hAll comm hMem', hCandidate] at hCandidate'
        obtain rfl := Option.some.inj hCandidate'
        have hGuard := hSafe _ _ [] .refl [] _ _ _ rfl hStep
        rwa [guardAccepts_wrapResult, hData, hContinuation] at hGuard
      | kept s hNone hView =>
        rw [hNone comms hRecorded _ hMem] at hCandidate
        cases hCandidate
      | panicked comms' comm pc' hRecorded' hMem' hCandidate' hTrace =>
        obtain rfl := Option.some.inj (hRecorded.symm.trans hRecorded')
        rw [hAll comm hMem', hCandidate] at hCandidate'
        obtain rfl := Option.some.inj hCandidate'
        exact absurd ⟨_, hMem, congrArg COMM.identity hComm.symm⟩ hTrace
  · intro hNever store log ops ord results st result st' _ hStep
    have hAccepted := accepted_of_step hStep
    have hOutcome := ReplayRSpace.step_outcome env ord st hAccepted
    rw [hStep] at hOutcome
    cases hOutcome with
    | fired comms comm pc s hRecorded hMem hCandidate hTrace hView =>
      exact guardAccepts_wrapResult.mpr (guard_of_candidate hAccepted hNever hCandidate)

/-- The log of a proposer that claims a COMM of the datum 1 with a consume that asks for a 5. -/
def vetoedLog : Log :=
  let p := Produce.create sampleEnv 7 1 false
  let c := Consume.create sampleEnv [7] [0] 5 false
  [.ioEvent (.produce p), .ioEvent (.consume c), .comm (COMM.new [p] c ∅ fun _ => 1)]

/-- The replay of that log fires the consume on the datum that its guard rejects. -/
theorem replay_vetoedLog_fires :
    ∃ st result, ReplayRSpace.run sampleEnv
        [(.produce 7 1 false, .refl), (.consume [7] [0] 5 false ∅, .refl)]
        (rigAndReset emptySpace.store vetoedLog) = .ok ([none, some result], st) ∧
      ¬ GuardAccepts sampleEnv result := by
  refine ⟨_, _, rfl, ?_⟩
  unfold GuardAccepts
  decide

end F1r3Node.Space
