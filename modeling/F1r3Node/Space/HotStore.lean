import F1r3Node.Space.Event

/-! # The hot store

A key that is absent from a map is answered by the reader, and the answer stays in the map, so the maps also hold
entries that were only looked at.
-/

namespace F1r3Node.Space

structure Datum (A : Type) where
  a : A
  persist : Bool
  source : Produce
  deriving DecidableEq

structure WaitingContinuation (P K : Type) where
  patterns : List P
  continuation : K
  persist : Bool
  peeks : Finset Int
  source : Consume
  deriving DecidableEq

inductive RSpaceError where
  | bugFoundError (message : String)
  deriving DecidableEq

abbrev ShardedMap (κ ν : Type) := AList fun _ : κ => ν

/-- The base of a history reader: what the history holds for a key. -/
structure HistoryReader (C P A K : Type) where
  getData : C → List (Datum A)
  getContinuations : List C → List (WaitingContinuation P K)
  getJoins : C → List (List C)

def HistoryReader.empty (C P A K : Type) : HistoryReader C P A K :=
  ⟨fun _ => [], fun _ => [], fun _ => []⟩

structure HotStore (C P A K : Type) where
  history : HistoryReader C P A K
  data : ShardedMap C (List (Datum A))
  continuations : ShardedMap (List C) (List (WaitingContinuation P K))
  installedContinuations : ShardedMap (List C) (WaitingContinuation P K)
  joins : ShardedMap C (List (List C))
  installedJoins : ShardedMap C (List (List C))
  /-- `install` makes persistent continuations only. -/
  installed_persist : ∀ entry ∈ installedContinuations.entries, entry.2.persist = true

namespace HotStore

variable {C P A K : Type} [DecidableEq C]

/-- `create_from_hr`. -/
def createFromHr (history : HistoryReader C P A K) : HotStore C P A K :=
  ⟨history, ∅, ∅, ∅, ∅, ∅, by simp⟩

def storedData (s : HotStore C P A K) (channel : C) : List (Datum A) :=
  (s.data.lookup channel).getD (s.history.getData channel)

def storedContinuations (s : HotStore C P A K) (channels : List C) : List (WaitingContinuation P K) :=
  (s.continuations.lookup channels).getD (s.history.getContinuations channels)

def storedJoins (s : HotStore C P A K) (channel : C) : List (List C) :=
  (s.joins.lookup channel).getD (s.history.getJoins channel)

def installed (s : HotStore C P A K) (channels : List C) : Option (WaitingContinuation P K) :=
  s.installedContinuations.lookup channels

theorem persist_of_installed {s : HotStore C P A K} {channels : List C} {wc : WaitingContinuation P K}
    (h : s.installed channels = some wc) : wc.persist = true :=
  s.installed_persist _ (AList.mem_lookup_iff.mp h)

def withData (s : HotStore C P A K) (channel : C) (data : List (Datum A)) : HotStore C P A K :=
  { s with data := s.data.insert channel data }

def withContinuations (s : HotStore C P A K) (channels : List C)
    (continuations : List (WaitingContinuation P K)) : HotStore C P A K :=
  { s with continuations := s.continuations.insert channels continuations }

def withJoins (s : HotStore C P A K) (channel : C) (joins : List (List C)) : HotStore C P A K :=
  { s with joins := s.joins.insert channel joins }

section views

variable (s : HotStore C P A K) (channel channel' : C) (channels channels' : List C)

@[simp] theorem storedData_withData (data : List (Datum A)) :
    (s.withData channel data).storedData channel' =
      if channel' = channel then data else s.storedData channel' := by
  unfold storedData withData
  split_ifs with h
  · subst h
    simp
  · simp [h]

@[simp] theorem storedContinuations_withContinuations (ks : List (WaitingContinuation P K)) :
    (s.withContinuations channels ks).storedContinuations channels' =
      if channels' = channels then ks else s.storedContinuations channels' := by
  unfold storedContinuations withContinuations
  split_ifs with h
  · subst h
    simp
  · simp [h]

@[simp] theorem storedJoins_withJoins (joins : List (List C)) :
    (s.withJoins channel joins).storedJoins channel' =
      if channel' = channel then joins else s.storedJoins channel' := by
  unfold storedJoins withJoins
  split_ifs with h
  · subst h
    simp
  · simp [h]

end views

def getData (s : HotStore C P A K) (channel : C) : List (Datum A) × HotStore C P A K :=
  (s.storedData channel, s.withData channel (s.storedData channel))

def putDatum (s : HotStore C P A K) (channel : C) (d : Datum A) : HotStore C P A K :=
  s.withData channel (d :: s.storedData channel)

def outOfBounds {α : Type} (index : Int) (items : List α) : Prop :=
  index < 0 ∨ (items.length : Int) ≤ index

instance {α : Type} (index : Int) (items : List α) : Decidable (outOfBounds index items) :=
  inferInstanceAs (Decidable (_ ∨ _))

def removeDatum (s : HotStore C P A K) (channel : C) (index : Int) :
    Except RSpaceError Unit × HotStore C P A K :=
  let existing := s.storedData channel
  if outOfBounds index existing then
    let len := existing.length
    (.error (.bugFoundError s!"Index {index} out of bounds when removing datum (len={len})"),
      s.withData channel existing)
  else (.ok (), s.withData channel (existing.eraseIdx index.toNat))

def getContinuations (s : HotStore C P A K) (channels : List C) :
    List (WaitingContinuation P K) × HotStore C P A K :=
  ((s.installed channels).toList ++ s.storedContinuations channels,
    s.withContinuations channels (s.storedContinuations channels))

def sameContinuation [DecidableEq P] [DecidableEq K] (a b : WaitingContinuation P K) : Bool :=
  a.persist = b.persist ∧ a.peeks = b.peeks ∧ a.patterns = b.patterns ∧
    a.continuation = b.continuation

def putContinuation [DecidableEq P] [DecidableEq K] (s : HotStore C P A K) (channels : List C)
    (wc : WaitingContinuation P K) : HotStore C P A K :=
  let existing := s.storedContinuations channels
  s.withContinuations channels
    (if existing.any (sameContinuation · wc) then existing else wc :: existing)

/-- An installed continuation is never removed and shifts the index of the stored ones. -/
def removeContinuation (s : HotStore C P A K) (channels : List C) (index : Int) : HotStore C P A K :=
  let isInstalled := (s.installed channels).isSome
  let removedIndex := if isInstalled then index - 1 else index
  let existing := s.storedContinuations channels
  if isInstalled ∧ index = 0 then s
  else if outOfBounds removedIndex existing then s.withContinuations channels existing
  else s.withContinuations channels (existing.eraseIdx removedIndex.toNat)

def getJoins (s : HotStore C P A K) (channel : C) : List (List C) × HotStore C P A K :=
  ((s.installedJoins.lookup channel).getD [] ++ s.storedJoins channel,
    s.withJoins channel (s.storedJoins channel))

def putJoin (s : HotStore C P A K) (channel : C) (join : List C) : HotStore C P A K :=
  let existing := s.storedJoins channel
  s.withJoins channel (if join ∈ existing then existing else join :: existing)

def removeJoin (s : HotStore C P A K) (channel : C) (join : List C) : HotStore C P A K :=
  let doRemove := ¬ (s.installed join).isSome ∧ s.storedContinuations join = []
  let existing := s.storedJoins channel
  s.withJoins channel (if doRemove then existing.erase join else existing)

end HotStore

end F1r3Node.Space
