import F1r3Node.Space.InMemHotStore

/-! # The hot store as an overlay of the history

Every reply of the store is the reply of the pure map, whatever the caches hold, and the changes of the store turn the
history into it.
-/

namespace F1r3Node.Space

open Lib
open HotStore (outOfBounds)
open InMemHotStore (removeAt removeDatumAt)

/-- What is stored under each key, and what is installed. -/
structure PureStore (C P A K : Type) where
  stored : HistoryReader C P A K
  installedContinuations : List C → Option (WaitingContinuation P K)
  installedJoins : C → Option (List (List C))

def PureStore.ofHistory {C P A K : Type} (history : HistoryReader C P A K) : PureStore C P A K :=
  ⟨history, fun _ => none, fun _ => none⟩

inductive HotStoreOp (C P A K : Type) where
  | getContinuations (channels : List C)
  | putContinuation (channels : List C) (wc : WaitingContinuation P K)
  | installContinuation (channels : List C) (wc : WaitingContinuation P K)
  | removeContinuation (channels : List C) (index : Int)
  | getData (channel : C)
  | getDataAt (snapshot : Nat) (channel : C)
  | putDatum (channel : C) (d : Datum A)
  | removeDatum (channel : C) (index : Int)
  | getJoins (channel : C)
  | putJoin (channel : C) (join : List C)
  | installJoin (channel : C) (join : List C)
  | removeJoin (channel : C) (join : List C)
  | snapshot
  -- the state is set back to an earlier snapshot
  | setState (snapshot : Nat)

inductive Reply (C P A K : Type) where
  | continuations (continuations : List (WaitingContinuation P K))
  | inserted (result : Option Bool)
  | removedContinuation (result : Option Unit)
  | data (data : List (Datum A))
  | removedDatum (result : Except RSpaceError Unit)
  | joins (joins : List (List C))
  | silent

section

variable {C P A K : Type} [DecidableEq C] (same : WaitingContinuation P K → WaitingContinuation P K → Bool)

namespace PureStore

variable (p : PureStore C P A K)

def setContinuations (channels : List C) (continuations : List (WaitingContinuation P K)) : PureStore C P A K :=
  { p with stored := { p.stored with
    getContinuations := Function.update p.stored.getContinuations channels continuations } }

def setData (channel : C) (data : List (Datum A)) : PureStore C P A K :=
  { p with stored := { p.stored with getData := Function.update p.stored.getData channel data } }

def setJoins (channel : C) (joins : List (List C)) : PureStore C P A K :=
  { p with stored := { p.stored with getJoins := Function.update p.stored.getJoins channel joins } }

def step (op : HotStoreOp C P A K) (p : PureStore C P A K) (snapshots : List (PureStore C P A K)) :
    Reply C P A K × PureStore C P A K × List (PureStore C P A K) :=
  match op with
  | .getContinuations channels =>
    (.continuations ((p.installedContinuations channels).toList ++ p.stored.getContinuations channels), p, snapshots)
  | .putContinuation channels wc =>
    let existing := p.stored.getContinuations channels
    if existing.any (same · wc) then (.inserted (some false), p, snapshots)
    else (.inserted (some true), p.setContinuations channels (wc :: existing), snapshots)
  | .installContinuation channels wc =>
    (.silent, { p with installedContinuations := Function.update p.installedContinuations channels (some wc) }, snapshots)
  | .removeContinuation channels index =>
    let isInstalled := (p.installedContinuations channels).isSome
    let removedIndex := if isInstalled then index - 1 else index
    let existing := p.stored.getContinuations channels
    if isInstalled ∧ index = 0 ∨ outOfBounds removedIndex existing then (.removedContinuation none, p, snapshots)
    else (.removedContinuation (some ()), p.setContinuations channels (existing.eraseIdx removedIndex.toNat), snapshots)
  | .getData channel => (.data (p.stored.getData channel), p, snapshots)
  | .getDataAt k channel =>
    match snapshots[k]? with
    | some snapshot => (.data (snapshot.stored.getData channel), p, snapshots)
    | none => (.silent, p, snapshots)
  | .putDatum channel d => (.silent, p.setData channel (d :: p.stored.getData channel), snapshots)
  | .removeDatum channel index =>
    let (data, result) := removeDatumAt index (p.stored.getData channel)
    (.removedDatum result, p.setData channel data, snapshots)
  | .getJoins channel => (.joins ((p.installedJoins channel).getD [] ++ p.stored.getJoins channel), p, snapshots)
  | .putJoin channel join =>
    let existing := p.stored.getJoins channel
    if join ∈ existing then (.silent, p, snapshots) else (.silent, p.setJoins channel (join :: existing), snapshots)
  | .installJoin channel join =>
    let existing := (p.installedJoins channel).getD []
    let installed := if join ∈ existing then existing else join :: existing
    (.silent, { p with installedJoins := Function.update p.installedJoins channel (some installed) }, snapshots)
  | .removeJoin channel join =>
    if p.installedContinuations join = none ∧ p.stored.getContinuations join = [] then
      (.silent, p.setJoins channel ((p.stored.getJoins channel).erase join), snapshots)
    else (.silent, p, snapshots)
  | .snapshot => (.silent, p, snapshots ++ [p])
  | .setState k => (.silent, (snapshots[k]?).getD p, snapshots)

end PureStore

def InMemHotStore.step (op : HotStoreOp C P A K) (s : InMemHotStore C P A K) (snapshots : List (HotStoreState C P A K)) :
    Reply C P A K × InMemHotStore C P A K × List (HotStoreState C P A K) :=
  match op with
  | .getContinuations channels =>
    let (continuations, s) := s.getContinuations channels
    (.continuations continuations, s, snapshots)
  | .putContinuation channels wc =>
    let (result, s) := s.putContinuation same channels wc
    (.inserted result, s, snapshots)
  | .installContinuation channels wc => (.silent, s.installContinuation channels wc, snapshots)
  | .removeContinuation channels index =>
    let (result, s) := s.removeContinuation channels index
    (.removedContinuation result, s, snapshots)
  | .getData channel =>
    let (data, s) := s.getData channel
    (.data data, s, snapshots)
  | .getDataAt k channel =>
    match snapshots[k]? with
    | some snapshot =>
      let (data, s) := s.getDataAt snapshot channel
      (.data data, s, snapshots)
    | none => (.silent, s, snapshots)
  | .putDatum channel d => (.silent, s.putDatum channel d, snapshots)
  | .removeDatum channel index =>
    let (result, s) := s.removeDatum channel index
    (.removedDatum result, s, snapshots)
  | .getJoins channel =>
    let (joins, s) := s.getJoins channel
    (.joins joins, s, snapshots)
  | .putJoin channel join => (.silent, s.putJoin channel join, snapshots)
  | .installJoin channel join => (.silent, s.installJoin channel join, snapshots)
  | .removeJoin channel join => (.silent, s.removeJoin channel join, snapshots)
  | .snapshot => (.silent, s, snapshots ++ [s.state])
  | .setState k => (.silent, ((snapshots[k]?).map s.setState).getD s, snapshots)

def replies {Op σ ρ ω : Type} (step : Op → σ → ω → ρ × σ × ω) : List Op → σ → ω → List ρ × σ × ω
  | [], s, snapshots => ([], s, snapshots)
  | op :: ops, s, snapshots =>
    let (reply, s, snapshots) := step op s snapshots
    let (rest, s, snapshots) := replies step ops s snapshots
    (reply :: rest, s, snapshots)

end

section

variable {C P A K : Type} [DecidableEq C] {history : HistoryReader C P A K}

structure CachesCoherent (history : HistoryReader C P A K) (caches : HistoryCaches C P A K) : Prop where
  continuations : caches.continuations.Coherent history.getContinuations
  datums : caches.datums.Coherent history.getData
  joins : caches.joins.Coherent history.getJoins

def abstracted (history : HistoryReader C P A K) (state : HotStoreState C P A K) : PureStore C P A K where
  stored :=
    { getData := overlay state.data history.getData
      getContinuations := overlay state.continuations history.getContinuations
      getJoins := overlay state.joins history.getJoins }
  installedContinuations := fun channels => state.installedContinuations.lookup channels
  installedJoins := fun channel => state.installedJoins.lookup channel

structure StoreRepresents (history : HistoryReader C P A K) (s : InMemHotStore C P A K)
    (p : PureStore C P A K) : Prop where
  reader : s.historyReaderBase = history
  caches : CachesCoherent history s.caches
  state : abstracted history s.state = p

theorem storeRepresents_create (history : HistoryReader C P A K) :
    StoreRepresents history (.create history) (.ofHistory history) := by
  refine ⟨rfl, ⟨HistoryCache.coherent_cleared, HistoryCache.coherent_cleared, HistoryCache.coherent_cleared⟩, ?_⟩
  simp only [abstracted, InMemHotStore.create, overlay_empty, PureStore.ofHistory, AList.lookup_empty]

section fetch

variable {caches : HistoryCaches C P A K} (h : CachesCoherent history caches)

include h

theorem CachesCoherent.enforceBounds : CachesCoherent history (enforceHistoryCacheBounds caches) :=
  ⟨h.continuations.enforceBounds, h.datums.enforceBounds, h.joins.enforceBounds⟩

theorem getContFromHistoryStore_spec (channels : List C) :
    (getContFromHistoryStore history channels caches).1 = history.getContinuations channels ∧
      CachesCoherent history (getContFromHistoryStore history channels caches).2 := by
  obtain ⟨hValue, hKept⟩ := h.enforceBounds.continuations.fetch channels
  exact ⟨hValue, hKept, h.enforceBounds.datums, h.enforceBounds.joins⟩

theorem getDataFromHistoryStore_spec (channel : C) :
    (getDataFromHistoryStore history channel caches).1 = history.getData channel ∧
      CachesCoherent history (getDataFromHistoryStore history channel caches).2 := by
  obtain ⟨hValue, hKept⟩ := h.enforceBounds.datums.fetch channel
  exact ⟨hValue, h.enforceBounds.continuations, hKept, h.enforceBounds.joins⟩

theorem getJoinsFromHistoryStore_spec (channel : C) :
    (getJoinsFromHistoryStore history channel caches).1 = history.getJoins channel ∧
      CachesCoherent history (getJoinsFromHistoryStore history channel caches).2 := by
  obtain ⟨hValue, hKept⟩ := h.enforceBounds.joins.fetch channel
  exact ⟨hValue, h.enforceBounds.continuations, h.enforceBounds.datums, hKept⟩

end fetch

namespace StoreRepresents

variable {s : InMemHotStore C P A K} {p : PureStore C P A K} (h : StoreRepresents history s p)

include h

/-! Reads through a map leave the pure map as it is, and edits change the entry they are about. -/

theorem readContinuations (channels : List C) :
    let result := readEntry s.state.continuations channels
      (getContFromHistoryStore s.historyReaderBase channels) s.caches
    result.1 = p.stored.getContinuations channels ∧
      StoreRepresents history (s.withContinuations result.2.1 result.2.2) p := by
  obtain ⟨rfl, hCaches, rfl⟩ := h
  obtain ⟨hValue, hKept⟩ := getContFromHistoryStore_spec hCaches channels
  obtain ⟨hReply, hMap, hCaches'⟩ := readEntry_spec (m := s.state.continuations) hValue hCaches hKept
  refine ⟨hReply, rfl, hCaches', ?_⟩
  simp only [abstracted, InMemHotStore.withContinuations, hMap]

theorem editContinuations (channels : List C) {ρ : Type}
    (edit : List (WaitingContinuation P K) → List (WaitingContinuation P K) × ρ) :
    let result := editEntry s.state.continuations channels
      (getContFromHistoryStore s.historyReaderBase channels) edit s.caches
    result.1 = (edit (p.stored.getContinuations channels)).2 ∧
      StoreRepresents history (s.withContinuations result.2.1 result.2.2)
        (p.setContinuations channels (edit (p.stored.getContinuations channels)).1) := by
  obtain ⟨rfl, hCaches, rfl⟩ := h
  obtain ⟨hValue, hKept⟩ := getContFromHistoryStore_spec hCaches channels
  obtain ⟨hReply, hMap, hCaches'⟩ := editEntry_spec (m := s.state.continuations) hValue hCaches hKept edit
  refine ⟨hReply, rfl, hCaches', ?_⟩
  simp only [abstracted, InMemHotStore.withContinuations, hMap, PureStore.setContinuations]

theorem readData (channel : C) :
    let result := readEntry s.state.data channel (getDataFromHistoryStore s.historyReaderBase channel) s.caches
    result.1 = p.stored.getData channel ∧ StoreRepresents history (s.withData result.2.1 result.2.2) p := by
  obtain ⟨rfl, hCaches, rfl⟩ := h
  obtain ⟨hValue, hKept⟩ := getDataFromHistoryStore_spec hCaches channel
  obtain ⟨hReply, hMap, hCaches'⟩ := readEntry_spec (m := s.state.data) hValue hCaches hKept
  refine ⟨hReply, rfl, hCaches', ?_⟩
  simp only [abstracted, InMemHotStore.withData, hMap]

theorem editData (channel : C) {ρ : Type} (edit : List (Datum A) → List (Datum A) × ρ) :
    let result := editEntry s.state.data channel (getDataFromHistoryStore s.historyReaderBase channel) edit s.caches
    result.1 = (edit (p.stored.getData channel)).2 ∧ StoreRepresents history (s.withData result.2.1 result.2.2)
      (p.setData channel (edit (p.stored.getData channel)).1) := by
  obtain ⟨rfl, hCaches, rfl⟩ := h
  obtain ⟨hValue, hKept⟩ := getDataFromHistoryStore_spec hCaches channel
  obtain ⟨hReply, hMap, hCaches'⟩ := editEntry_spec (m := s.state.data) hValue hCaches hKept edit
  refine ⟨hReply, rfl, hCaches', ?_⟩
  simp only [abstracted, InMemHotStore.withData, hMap, PureStore.setData]

theorem readJoins (channel : C) :
    let result := readEntry s.state.joins channel (getJoinsFromHistoryStore s.historyReaderBase channel) s.caches
    result.1 = p.stored.getJoins channel ∧ StoreRepresents history (s.withJoins result.2.1 result.2.2) p := by
  obtain ⟨rfl, hCaches, rfl⟩ := h
  obtain ⟨hValue, hKept⟩ := getJoinsFromHistoryStore_spec hCaches channel
  obtain ⟨hReply, hMap, hCaches'⟩ := readEntry_spec (m := s.state.joins) hValue hCaches hKept
  refine ⟨hReply, rfl, hCaches', ?_⟩
  simp only [abstracted, InMemHotStore.withJoins, hMap]

theorem editJoins (channel : C) (edit : List (List C) → List (List C)) {caches : HistoryCaches C P A K}
    (hCaches : CachesCoherent history caches) :
    let result := editEntry s.state.joins channel (getJoinsFromHistoryStore s.historyReaderBase channel)
      (fun existing => (edit existing, ())) caches
    StoreRepresents history (s.withJoins result.2.1 result.2.2)
      (p.setJoins channel (edit (p.stored.getJoins channel))) := by
  obtain ⟨rfl, -, rfl⟩ := h
  obtain ⟨hValue, hKept⟩ := getJoinsFromHistoryStore_spec hCaches channel
  obtain ⟨-, hMap, hCaches'⟩ := editEntry_spec (m := s.state.joins) hValue hCaches hKept fun existing =>
    (edit existing, ())
  refine ⟨rfl, hCaches', ?_⟩
  simp only [abstracted, InMemHotStore.withJoins, hMap, PureStore.setJoins]

theorem noContinuations_spec (join : List C) :
    ((s.noContinuations join).1 = true ↔ p.installedContinuations join = none ∧ p.stored.getContinuations join = []) ∧
      CachesCoherent history (s.noContinuations join).2 := by
  obtain ⟨rfl, hCaches, rfl⟩ := h
  rw [InMemHotStore.noContinuations]
  simp only [abstracted]
  cases hInstalled : s.state.installedContinuations.lookup join with
  | some wc => simp [hCaches]
  | none =>
    cases hStored : s.state.continuations.lookup join with
    | some ks => simp [overlay_of_lookup hStored, hCaches]
    | none =>
      obtain ⟨hValue, hKept⟩ := getContFromHistoryStore_spec hCaches join
      simp [overlay_of_absent hStored, hValue, hKept]

end StoreRepresents

section step

variable (same : WaitingContinuation P K → WaitingContinuation P K → Bool)

@[simp] theorem setContinuations_self (p : PureStore C P A K) (channels : List C) :
    p.setContinuations channels (p.stored.getContinuations channels) = p := by
  simp only [PureStore.setContinuations, Function.update_eq_self]

@[simp] theorem setJoins_self (p : PureStore C P A K) (channel : C) :
    p.setJoins channel (p.stored.getJoins channel) = p := by
  simp only [PureStore.setJoins, Function.update_eq_self]

variable {s : InMemHotStore C P A K} {p : PureStore C P A K}

theorem StoreRepresents.removeContinuation (h : StoreRepresents history s p) (channels : List C) (index : Int)
    (snapshots : List (HotStoreState C P A K)) (pureSnapshots : List (PureStore C P A K)) :
    (s.step same (.removeContinuation channels index) snapshots).1 =
        (p.step same (.removeContinuation channels index) pureSnapshots).1 ∧
      StoreRepresents history (s.step same (.removeContinuation channels index) snapshots).2.1
        (p.step same (.removeContinuation channels index) pureSnapshots).2.1 := by
  have hInstalled : s.state.installedContinuations.lookup channels = p.installedContinuations channels := by
    rw [← h.state]
    rfl
  simp only [InMemHotStore.step, InMemHotStore.removeContinuation, PureStore.step, hInstalled]
  generalize (if (p.installedContinuations channels).isSome = true then index - 1 else index) = removedIndex
  by_cases hOwn : (p.installedContinuations channels).isSome = true ∧ index = 0
  · rw [if_pos hOwn, if_pos (.inl hOwn)]
    exact ⟨rfl, h⟩
  · obtain ⟨hReply, hRep⟩ := h.editContinuations channels (removeAt removedIndex)
    rw [if_neg hOwn]
    by_cases hOut : outOfBounds removedIndex (p.stored.getContinuations channels)
    · rw [removeAt, if_pos hOut] at hReply hRep
      rw [setContinuations_self] at hRep
      rw [if_pos (.inr hOut)]
      exact ⟨congrArg Reply.removedContinuation hReply, hRep⟩
    · rw [removeAt, if_neg hOut] at hReply hRep
      rw [if_neg (not_or.mpr ⟨hOwn, hOut⟩)]
      exact ⟨congrArg Reply.removedContinuation hReply, hRep⟩

theorem StoreRepresents.removeJoin (h : StoreRepresents history s p) (channel : C) (join : List C) :
    StoreRepresents history (s.removeJoin channel join)
      (if p.installedContinuations join = none ∧ p.stored.getContinuations join = [] then
        p.setJoins channel ((p.stored.getJoins channel).erase join) else p) := by
  obtain ⟨hNone, hCaches⟩ := h.noContinuations_spec join
  rw [InMemHotStore.removeJoin]
  generalize s.noContinuations join = outcome at hNone hCaches ⊢
  obtain ⟨doRemove, caches⟩ := outcome
  cases doRemove with
  | true =>
    rw [if_pos (hNone.mp rfl)]
    exact h.editJoins channel (fun existing => existing.erase join) hCaches
  | false =>
    rw [if_neg (mt hNone.mpr Bool.false_ne_true)]
    cases hJoins : s.state.joins.lookup channel with
    | some existing => exact ⟨h.reader, hCaches, h.state⟩
    | none =>
      -- a removal that is not made fills the map from the history
      obtain ⟨rfl, -, rfl⟩ := h
      obtain ⟨hValue, hKept⟩ := getJoinsFromHistoryStore_spec hCaches channel
      have hSame : overlay s.state.joins s.historyReaderBase.getJoins channel = s.historyReaderBase.getJoins channel :=
        overlay_of_absent hJoins
      have hFilled : overlay (s.state.joins.insert channel
          (getJoinsFromHistoryStore s.historyReaderBase channel caches).1) s.historyReaderBase.getJoins =
          overlay s.state.joins s.historyReaderBase.getJoins := by
        rw [overlay_insert, hValue, ← hSame, Function.update_eq_self]
      refine ⟨rfl, hKept, ?_⟩
      change abstracted _ { s.state with joins := (s.state.joins.insert channel
        (getJoinsFromHistoryStore s.historyReaderBase channel caches).1) } = _
      simp only [abstracted, hFilled]

theorem StoreRepresents.getDataAt (h : StoreRepresents history s p) (snapshot : HotStoreState C P A K) (channel : C) :
    (s.getDataAt snapshot channel).1 = (abstracted history snapshot).stored.getData channel ∧
      StoreRepresents history (s.getDataAt snapshot channel).2 p := by
  obtain ⟨rfl, hCaches, hState⟩ := h
  rw [InMemHotStore.getDataAt]
  cases hData : snapshot.data.lookup channel with
  | some data => exact ⟨(overlay_of_lookup hData).symm, rfl, hCaches, hState⟩
  | none =>
    obtain ⟨hValue, hKept⟩ := getDataFromHistoryStore_spec hCaches channel
    exact ⟨hValue.trans (overlay_of_absent hData).symm, rfl, hKept, hState⟩

theorem installedAfter (installed : Option (List (List C))) (join : List C) :
    (match installed with
      | some existing => if join ∈ existing then existing else join :: existing
      | none => [join]) =
      if join ∈ installed.getD [] then installed.getD [] else join :: installed.getD [] := by
  cases installed <;> simp

variable {snapshots : List (HotStoreState C P A K)} {pureSnapshots : List (PureStore C P A K)}

theorem StoreRepresents.step (h : StoreRepresents history s p) (op : HotStoreOp C P A K)
    (hSnapshots : snapshots.map (abstracted history) = pureSnapshots) :
    (s.step same op snapshots).1 = (p.step same op pureSnapshots).1 ∧
      StoreRepresents history (s.step same op snapshots).2.1 (p.step same op pureSnapshots).2.1 ∧
      (s.step same op snapshots).2.2.map (abstracted history) = (p.step same op pureSnapshots).2.2 := by
  cases op with
  | getContinuations channels =>
    obtain ⟨hReply, hRep⟩ := h.readContinuations channels
    refine ⟨?_, hRep, hSnapshots⟩
    simp only [InMemHotStore.step, InMemHotStore.getContinuations, PureStore.step, hReply, ← h.state]
    rfl
  | putContinuation channels wc =>
    obtain ⟨hReply, hRep⟩ := h.editContinuations channels
      (fun existing => if existing.any (same · wc) then (existing, false) else (wc :: existing, true))
    simp only [InMemHotStore.step, InMemHotStore.putContinuation, PureStore.step]
    split
    · next hDup =>
      simp only [if_pos hDup, setContinuations_self] at hReply hRep
      exact ⟨congrArg (Reply.inserted ∘ some) hReply, hRep, hSnapshots⟩
    · next hNew =>
      simp only [if_neg hNew] at hReply hRep
      exact ⟨congrArg (Reply.inserted ∘ some) hReply, hRep, hSnapshots⟩
  | installContinuation channels wc =>
    obtain ⟨rfl, hCaches, rfl⟩ := h
    refine ⟨rfl, ⟨rfl, hCaches, ?_⟩, hSnapshots⟩
    simp only [InMemHotStore.step, InMemHotStore.installContinuation, PureStore.step, abstracted]
    congr 1
    funext channels'
    by_cases hSame : channels' = channels
    · subst hSame
      simp
    · simp [hSame]
  | removeContinuation channels index =>
    obtain ⟨hReply, hRep⟩ := h.removeContinuation same channels index snapshots pureSnapshots
    refine ⟨hReply, hRep, hSnapshots.trans ?_⟩
    rw [PureStore.step]
    split_ifs <;> rfl
  | getData channel =>
    obtain ⟨hReply, hRep⟩ := h.readData channel
    exact ⟨congrArg Reply.data hReply, hRep, hSnapshots⟩
  | getDataAt k channel =>
    simp only [InMemHotStore.step, PureStore.step, ← hSnapshots, List.getElem?_map]
    cases snapshots[k]? with
    | none => exact ⟨rfl, h, rfl⟩
    | some snapshot =>
      obtain ⟨hReply, hRep⟩ := h.getDataAt snapshot channel
      exact ⟨congrArg Reply.data hReply, hRep, rfl⟩
  | putDatum channel d =>
    obtain ⟨-, hRep⟩ := h.editData channel (fun existing => (d :: existing, ()))
    exact ⟨rfl, hRep, hSnapshots⟩
  | removeDatum channel index =>
    obtain ⟨hReply, hRep⟩ := h.editData channel (removeDatumAt index)
    exact ⟨congrArg Reply.removedDatum hReply, hRep, hSnapshots⟩
  | getJoins channel =>
    obtain ⟨hReply, hRep⟩ := h.readJoins channel
    refine ⟨?_, hRep, hSnapshots⟩
    simp only [InMemHotStore.step, InMemHotStore.getJoins, PureStore.step, hReply, ← h.state]
    rfl
  | putJoin channel join =>
    have hRep := h.editJoins channel (fun existing => if join ∈ existing then existing else join :: existing) h.caches
    simp only [InMemHotStore.step, InMemHotStore.putJoin, PureStore.step]
    split
    · next hMem =>
      simp only [if_pos hMem, setJoins_self] at hRep
      exact ⟨rfl, hRep, hSnapshots⟩
    · next hNew =>
      simp only [if_neg hNew] at hRep
      exact ⟨rfl, hRep, hSnapshots⟩
  | installJoin channel join =>
    obtain ⟨rfl, hCaches, rfl⟩ := h
    refine ⟨rfl, ⟨rfl, hCaches, ?_⟩, hSnapshots⟩
    simp only [InMemHotStore.step, InMemHotStore.installJoin, PureStore.step, abstracted]
    congr 1
    funext channel'
    by_cases hSame : channel' = channel
    · subst hSame
      rw [AList.lookup_insert, Function.update_self]
      exact congrArg some (installedAfter _ join)
    · simp [hSame]
  | removeJoin channel join =>
    have hRep := h.removeJoin channel join
    simp only [InMemHotStore.step, PureStore.step]
    split
    · next hNone =>
      rw [if_pos hNone] at hRep
      exact ⟨rfl, hRep, hSnapshots⟩
    · next hSome =>
      rw [if_neg hSome] at hRep
      exact ⟨rfl, hRep, hSnapshots⟩
  | snapshot =>
    refine ⟨rfl, h, ?_⟩
    simp only [InMemHotStore.step, PureStore.step, List.map_append, List.map_singleton, hSnapshots, h.state]
  | setState k =>
    refine ⟨rfl, ?_, hSnapshots⟩
    simp only [InMemHotStore.step, PureStore.step, ← hSnapshots, List.getElem?_map]
    cases snapshots[k]? with
    | none => exact h
    | some snapshot => exact ⟨h.reader, h.caches, rfl⟩

theorem StoreRepresents.replies (h : StoreRepresents history s p) (ops : List (HotStoreOp C P A K))
    (hSnapshots : snapshots.map (abstracted history) = pureSnapshots) :
    (Space.replies (InMemHotStore.step same) ops s snapshots).1 =
        (Space.replies (PureStore.step same) ops p pureSnapshots).1 ∧
      StoreRepresents history (Space.replies (InMemHotStore.step same) ops s snapshots).2.1
        (Space.replies (PureStore.step same) ops p pureSnapshots).2.1 := by
  induction ops generalizing s p snapshots pureSnapshots with
  | nil => exact ⟨rfl, h⟩
  | cons op ops ih =>
    obtain ⟨hReply, hRep, hNext⟩ := h.step same op hSnapshots
    obtain ⟨hRest, hEnd⟩ := ih hRep hNext
    exact ⟨congrArg₂ List.cons hReply hRest, hEnd⟩

end step

def HistoryReader.apply (history : HistoryReader C P A K) : HotStoreAction C P A K → HistoryReader C P A K
  | .insertData channel data => { history with getData := Function.update history.getData channel data }
  | .insertJoins channel joins => { history with getJoins := Function.update history.getJoins channel joins }
  | .insertContinuations channels continuations =>
    { history with getContinuations := Function.update history.getContinuations channels continuations }
  | .deleteData channel => { history with getData := Function.update history.getData channel [] }
  | .deleteJoins channel => { history with getJoins := Function.update history.getJoins channel [] }
  | .deleteContinuations channels =>
    { history with getContinuations := Function.update history.getContinuations channels [] }

theorem apply_insertOrDeleteData (history : HistoryReader C P A K) (entry : (_ : C) × List (Datum A)) :
    history.apply (entryAction .insertData .deleteData entry) =
      { history with getData := Function.update history.getData entry.1 entry.2 } := by
  rw [entryAction]
  split
  · next hEmpty => rw [HistoryReader.apply, hEmpty]
  · rfl

theorem apply_insertOrDeleteJoins (history : HistoryReader C P A K) (entry : (_ : C) × List (List C)) :
    history.apply (entryAction .insertJoins .deleteJoins entry) =
      { history with getJoins := Function.update history.getJoins entry.1 entry.2 } := by
  rw [entryAction]
  split
  · next hEmpty => rw [HistoryReader.apply, hEmpty]
  · rfl

theorem apply_insertOrDeleteContinuations (history : HistoryReader C P A K)
    (entry : (_ : List C) × List (WaitingContinuation P K)) :
    history.apply (entryAction .insertContinuations .deleteContinuations entry) =
      { history with getContinuations := Function.update history.getContinuations entry.1 entry.2 } := by
  rw [entryAction]
  split
  · next hEmpty => rw [HistoryReader.apply, hEmpty]
  · rfl

/-- The entries of the three maps in some order each, as `iter_flat` lists them. -/
structure ChangesOf (state : HotStoreState C P A K) (actions : List (HotStoreAction C P A K)) : Prop where
  listed : ∃ (continuations : List ((_ : List C) × List (WaitingContinuation P K)))
    (data : List ((_ : C) × List (Datum A))) (joins : List ((_ : C) × List (List C))),
    continuations.Perm state.continuations.entries ∧ data.Perm state.data.entries ∧ joins.Perm state.joins.entries ∧
    actions = continuations.map (entryAction .insertContinuations .deleteContinuations) ++
      data.map (entryAction .insertData .deleteData) ++ joins.map (entryAction .insertJoins .deleteJoins)

omit [DecidableEq C] in
theorem changesOf_changes (s : InMemHotStore C P A K) : ChangesOf s.state s.changes :=
  ⟨⟨_, _, _, .refl _, .refl _, .refl _, rfl⟩⟩

section changes

variable (history : HistoryReader C P A K)

theorem foldl_continuationActions (entries : List ((_ : List C) × List (WaitingContinuation P K))) :
    (entries.map (entryAction .insertContinuations .deleteContinuations)).foldl HistoryReader.apply history =
      { history with
        getContinuations := entries.foldl (fun f e => Function.update f e.1 e.2) history.getContinuations } :=
  @foldl_component _ _ _ _ _ _ _ HistoryReader.getContinuations
    (fun history f => { history with getContinuations := f }) apply_insertOrDeleteContinuations
    (fun _ _ => rfl) (fun _ _ _ => rfl) (fun _ => rfl) entries history

theorem foldl_dataActions (entries : List ((_ : C) × List (Datum A))) :
    (entries.map (entryAction .insertData .deleteData)).foldl HistoryReader.apply history =
      { history with getData := entries.foldl (fun f e => Function.update f e.1 e.2) history.getData } :=
  @foldl_component _ _ _ _ _ _ _ HistoryReader.getData (fun history f => { history with getData := f })
    apply_insertOrDeleteData (fun _ _ => rfl) (fun _ _ _ => rfl) (fun _ => rfl) entries history

theorem foldl_joinActions (entries : List ((_ : C) × List (List C))) :
    (entries.map (entryAction .insertJoins .deleteJoins)).foldl HistoryReader.apply history =
      { history with getJoins := entries.foldl (fun f e => Function.update f e.1 e.2) history.getJoins } :=
  @foldl_component _ _ _ _ _ _ _ HistoryReader.getJoins (fun history f => { history with getJoins := f })
    apply_insertOrDeleteJoins (fun _ _ => rfl) (fun _ _ _ => rfl) (fun _ => rfl) entries history

theorem ChangesOf.foldl_apply {state : HotStoreState C P A K} {actions : List (HotStoreAction C P A K)}
    (h : ChangesOf state actions) : actions.foldl HistoryReader.apply history = (abstracted history state).stored := by
  obtain ⟨continuations, data, joins, hContinuations, hData, hJoins, rfl⟩ := h.listed
  rw [List.foldl_append, List.foldl_append, foldl_continuationActions, foldl_dataActions, foldl_joinActions,
    foldl_update_eq_overlay _ _ hContinuations, foldl_update_eq_overlay _ _ hData,
    foldl_update_eq_overlay _ _ hJoins]
  rfl

end changes

/-- For every history and every sequence of operations, the store replies as the pure map does, and its changes,
in any order of its entries, turn the history into the pure map. -/
theorem inMemHotStore_refines_pureStore (same : WaitingContinuation P K → WaitingContinuation P K → Bool)
    (history : HistoryReader C P A K) (ops : List (HotStoreOp C P A K)) :
    let run := replies (InMemHotStore.step same) ops (.create history) []
    let pureRun := replies (PureStore.step same) ops (.ofHistory history) []
    run.1 = pureRun.1 ∧ ChangesOf run.2.1.state run.2.1.changes ∧ ∀ actions, ChangesOf run.2.1.state actions →
      actions.foldl HistoryReader.apply history = pureRun.2.1.stored := by
  intro run pureRun
  have hNone : ([] : List (HotStoreState C P A K)).map (abstracted history) = [] := rfl
  obtain ⟨hReplies, hRep⟩ := (storeRepresents_create history).replies same ops hNone
  refine ⟨hReplies, changesOf_changes run.2.1, fun actions hActions => ?_⟩
  rw [hActions.foldl_apply, hRep.state]

end

end F1r3Node.Space
