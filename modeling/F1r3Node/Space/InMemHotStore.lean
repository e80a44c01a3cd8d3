import F1r3Node.Space.HistoryRepository
import F1r3Node.Lib.Overlay

/-! # The hot store with its history caches

Here the history is asked as in the source, through three caches that are emptied when they get too large.
-/

namespace F1r3Node.Space

open Lib
open HotStore (outOfBounds)

/-- A cache of what the history has returned, with the number of items in it. -/
structure HistoryCache (κ ν : Type) where
  entries : ShardedMap κ (List ν)
  items : Nat

namespace HistoryCache

variable {κ ν : Type}

def maxEntries : Nat := 512

def maxItems : Nat := 8192

def cleared : HistoryCache κ ν := ⟨∅, 0⟩

def enforceBounds (cache : HistoryCache κ ν) : HistoryCache κ ν :=
  if maxEntries ≤ cache.entries.keys.length ∨ maxItems ≤ cache.items then cleared else cache

def fetch [DecidableEq κ] (read : κ → List ν) (k : κ) : Fetch (HistoryCache κ ν) (List ν) := fun cache =>
  match cache.entries.lookup k with
  | some values => (values, cache)
  | none => (read k, ⟨cache.entries.insert k (read k), cache.items + (read k).length⟩)

def Coherent [DecidableEq κ] (read : κ → List ν) (cache : HistoryCache κ ν) : Prop :=
  ∀ k values, cache.entries.lookup k = some values → values = read k

variable [DecidableEq κ] {read : κ → List ν} {cache : HistoryCache κ ν}

theorem coherent_cleared : Coherent read cleared := by
  intro k values h
  simp [cleared] at h

theorem Coherent.enforceBounds (h : Coherent read cache) : Coherent read cache.enforceBounds := by
  rw [HistoryCache.enforceBounds]
  split
  · exact coherent_cleared
  · exact h

theorem Coherent.fetch (h : Coherent read cache) (k : κ) :
    (fetch read k cache).1 = read k ∧ Coherent read (fetch read k cache).2 := by
  rw [HistoryCache.fetch]
  cases hLookup : cache.entries.lookup k with
  | some values => exact ⟨h k values hLookup, h⟩
  | none =>
    refine ⟨rfl, fun k' values hValues => ?_⟩
    by_cases hk : k' = k
    · subst hk
      simpa using hValues.symm
    · simp only [AList.lookup_insert_ne hk] at hValues
      exact h k' values hValues

end HistoryCache

structure HistoryCaches (C P A K : Type) where
  continuations : HistoryCache (List C) (WaitingContinuation P K)
  datums : HistoryCache C (Datum A)
  joins : HistoryCache C (List C)

/-- The five maps, as `snapshot` takes them. -/
structure HotStoreState (C P A K : Type) where
  continuations : ShardedMap (List C) (List (WaitingContinuation P K))
  installedContinuations : ShardedMap (List C) (WaitingContinuation P K)
  data : ShardedMap C (List (Datum A))
  joins : ShardedMap C (List (List C))
  installedJoins : ShardedMap C (List (List C))

structure InMemHotStore (C P A K : Type) where
  state : HotStoreState C P A K
  caches : HistoryCaches C P A K
  historyReaderBase : HistoryReader C P A K

section

variable {C P A K : Type}

def InMemHotStore.create (history : HistoryReader C P A K) : InMemHotStore C P A K :=
  ⟨⟨∅, ∅, ∅, ∅, ∅⟩, ⟨.cleared, .cleared, .cleared⟩, history⟩

variable [DecidableEq C]

def enforceHistoryCacheBounds (caches : HistoryCaches C P A K) : HistoryCaches C P A K :=
  ⟨caches.continuations.enforceBounds, caches.datums.enforceBounds, caches.joins.enforceBounds⟩

section fetch

variable (history : HistoryReader C P A K)

def getContFromHistoryStore (channels : List C) : Fetch (HistoryCaches C P A K) (List (WaitingContinuation P K)) :=
  fun caches =>
    let caches := enforceHistoryCacheBounds caches
    let (ks, cache) := caches.continuations.fetch history.getContinuations channels
    (ks, { caches with continuations := cache })

def getDataFromHistoryStore (channel : C) : Fetch (HistoryCaches C P A K) (List (Datum A)) :=
  fun caches =>
    let caches := enforceHistoryCacheBounds caches
    let (datums, cache) := caches.datums.fetch history.getData channel
    (datums, { caches with datums := cache })

def getJoinsFromHistoryStore (channel : C) : Fetch (HistoryCaches C P A K) (List (List C)) :=
  fun caches =>
    let caches := enforceHistoryCacheBounds caches
    let (joins, cache) := caches.joins.fetch history.getJoins channel
    (joins, { caches with joins := cache })

end fetch

namespace InMemHotStore

variable (s : InMemHotStore C P A K)

def withContinuations (continuations : ShardedMap (List C) (List (WaitingContinuation P K)))
    (caches : HistoryCaches C P A K) : InMemHotStore C P A K :=
  { s with state := { s.state with continuations := continuations }, caches := caches }

def withData (data : ShardedMap C (List (Datum A))) (caches : HistoryCaches C P A K) : InMemHotStore C P A K :=
  { s with state := { s.state with data := data }, caches := caches }

def withJoins (joins : ShardedMap C (List (List C))) (caches : HistoryCaches C P A K) : InMemHotStore C P A K :=
  { s with state := { s.state with joins := joins }, caches := caches }

def getContinuations (channels : List C) : List (WaitingContinuation P K) × InMemHotStore C P A K :=
  let installed := s.state.installedContinuations.lookup channels
  let (stored, continuations, caches) := readEntry s.state.continuations channels
    (getContFromHistoryStore s.historyReaderBase channels) s.caches
  (installed.toList ++ stored, s.withContinuations continuations caches)

/-- `same` is `same_continuation`. -/
def putContinuation (same : WaitingContinuation P K → WaitingContinuation P K → Bool) (channels : List C)
    (wc : WaitingContinuation P K) : Option Bool × InMemHotStore C P A K :=
  let (inserted, continuations, caches) := editEntry s.state.continuations channels
    (getContFromHistoryStore s.historyReaderBase channels)
    (fun existing => if existing.any (same · wc) then (existing, false) else (wc :: existing, true)) s.caches
  (some inserted, s.withContinuations continuations caches)

def installContinuation (channels : List C) (wc : WaitingContinuation P K) : InMemHotStore C P A K :=
  { s with state := { s.state with
    installedContinuations := s.state.installedContinuations.insert channels wc } }

def removeAt {α : Type} (index : Int) (existing : List α) : List α × Option Unit :=
  if outOfBounds index existing then (existing, none) else (existing.eraseIdx index.toNat, some ())

def removeContinuation (channels : List C) (index : Int) : Option Unit × InMemHotStore C P A K :=
  let isInstalled := (s.state.installedContinuations.lookup channels).isSome
  let removedIndex := if isInstalled then index - 1 else index
  if isInstalled ∧ index = 0 then (none, s)
  else
    let (result, continuations, caches) := editEntry s.state.continuations channels
      (getContFromHistoryStore s.historyReaderBase channels) (removeAt removedIndex) s.caches
    (result, s.withContinuations continuations caches)

def getData (channel : C) : List (Datum A) × InMemHotStore C P A K :=
  let (data, map, caches) := readEntry s.state.data channel
    (getDataFromHistoryStore s.historyReaderBase channel) s.caches
  (data, s.withData map caches)

def getDataAt (snapshot : HotStoreState C P A K) (channel : C) : List (Datum A) × InMemHotStore C P A K :=
  match snapshot.data.lookup channel with
  | some data => (data, s)
  | none =>
    let (data, caches) := getDataFromHistoryStore s.historyReaderBase channel s.caches
    (data, { s with caches := caches })

def putDatum (channel : C) (d : Datum A) : InMemHotStore C P A K :=
  let (_, data, caches) := editEntry s.state.data channel
    (getDataFromHistoryStore s.historyReaderBase channel) (fun existing => (d :: existing, ())) s.caches
  s.withData data caches

def removeDatumAt (index : Int) (existing : List (Datum A)) : List (Datum A) × Except RSpaceError Unit :=
  if outOfBounds index existing then
    let len := existing.length
    (existing, .error (.bugFoundError s!"Index {index} out of bounds when removing datum (len={len})"))
  else (existing.eraseIdx index.toNat, .ok ())

def removeDatum (channel : C) (index : Int) : Except RSpaceError Unit × InMemHotStore C P A K :=
  let (result, data, caches) := editEntry s.state.data channel
    (getDataFromHistoryStore s.historyReaderBase channel) (removeDatumAt index) s.caches
  (result, s.withData data caches)

def getJoins (channel : C) : List (List C) × InMemHotStore C P A K :=
  let installed := s.state.installedJoins.lookup channel
  let (stored, joins, caches) := readEntry s.state.joins channel
    (getJoinsFromHistoryStore s.historyReaderBase channel) s.caches
  (installed.getD [] ++ stored, s.withJoins joins caches)

def putJoin (channel : C) (join : List C) : InMemHotStore C P A K :=
  let (_, joins, caches) := editEntry s.state.joins channel (getJoinsFromHistoryStore s.historyReaderBase channel)
    (fun existing => (if join ∈ existing then existing else join :: existing, ())) s.caches
  s.withJoins joins caches

def installJoin (channel : C) (join : List C) : InMemHotStore C P A K :=
  let installed := match s.state.installedJoins.lookup channel with
    | some existing => if join ∈ existing then existing else join :: existing
    | none => [join]
  { s with state := { s.state with installedJoins := s.state.installedJoins.insert channel installed } }

/-- Nothing waits on the join; a continuation list that is not in the map is read from the history and not filled in. -/
def noContinuations (join : List C) : Bool × HistoryCaches C P A K :=
  if (s.state.installedContinuations.lookup join).isSome then (false, s.caches)
  else match s.state.continuations.lookup join with
    | some ks => (ks.isEmpty, s.caches)
    | none =>
      let (ks, caches) := getContFromHistoryStore s.historyReaderBase join s.caches
      (ks.isEmpty, caches)

def removeJoin (channel : C) (join : List C) : InMemHotStore C P A K :=
  let hasJoinInState := (s.state.joins.lookup channel).isSome
  let (doRemove, caches) := s.noContinuations join
  if doRemove = false then
    if hasJoinInState then { s with caches := caches }
    else
      let (joinsInHistory, caches) := getJoinsFromHistoryStore s.historyReaderBase channel caches
      s.withJoins (s.state.joins.insert channel joinsInHistory) caches
  else
    let (_, joins, caches) := editEntry s.state.joins channel (getJoinsFromHistoryStore s.historyReaderBase channel)
      (fun existing => (existing.erase join, ())) caches
    s.withJoins joins caches

def setState (newState : HotStoreState C P A K) : InMemHotStore C P A K := { s with state := newState }

def changes : List (HotStoreAction C P A K) :=
  s.state.continuations.entries.map (entryAction .insertContinuations .deleteContinuations) ++
    s.state.data.entries.map (entryAction .insertData .deleteData) ++
    s.state.joins.entries.map (entryAction .insertJoins .deleteJoins)

end InMemHotStore

end

end F1r3Node.Space
