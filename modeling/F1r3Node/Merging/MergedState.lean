import F1r3Node.Merging.ResolveConflicts
import F1r3Node.Merging.StateChange

/-! # The merged state

The diffs of the survivors are combined in canonical order and turned into actions on the trie of the base.
-/

namespace F1r3Node.Merging

open Shared Space

def MergeType.debug : MergeType → String
  | .integerAdd => "IntegerAdd"
  | .bitmaskOr => "BitmaskOr"

def mergeTypeMismatch (channel : Bytes) (existing incoming : MergeType) : HistoryError :=
  .mergeError ("MergeType mismatch on channel " ++ displayHash channel ++ ": " ++ existing.debug ++ " vs " ++
    incoming.debug)

section numberChannels

variable {ε : Type} (mismatch : Bytes → MergeType → MergeType → ε) (overflow : Bytes → Int → Int → ε)

/-- Diffs of one channel agree on the merge type, and their sum is checked against the bound. -/
def foldNumberChannel (diffs : NumberChannelsDiff) (entry : Sigma fun _ : Bytes => Int × MergeType) :
    Except ε NumberChannelsDiff :=
  match diffs.lookup entry.1 with
  | none => .ok (diffs.insert entry.1 entry.2)
  | some existing =>
    if existing.2 ≠ entry.2.2 then .error (mismatch entry.1 existing.2 entry.2.2)
    else
      match combineMergeableValue existing.1 entry.2.1 entry.2.2 with
      | some combined => .ok (diffs.insert entry.1 (combined, existing.2))
      | none => .error (overflow entry.1 existing.1 entry.2.1)

def foldNumberChannels {R : Type} (mergeableChannels : R → NumberChannelsDiff) (items : List R) :
    Except ε NumberChannelsDiff :=
  (items.flatMap fun item => (mergeableChannels item).entries).foldlM (foldNumberChannel mismatch overflow) ∅

end numberChannels

def hashFromHashes (blake : Blake2b256) (channelsHashes : List Bytes) : Bytes :=
  blake.hash (sortByKey id channelsHashes).flatten

/-- What the history holds at the base, and the root it gets from a list of actions. -/
structure BaseHistory (Action : Type) where
  getData : Bytes → Except HistoryError (List (Datum ListParWithRandom))
  getDataProjBinary : Bytes → Except HistoryError (List Bytes)
  getContinuationsProjBinary : Bytes → Except HistoryError (List Bytes)
  getJoinsProjBinary : Bytes → Except HistoryError (List Bytes)
  applyTrieActions : List Action → Except HistoryError Bytes

/-- The codecs of foreign libraries: encoded data and random generators as their bytes. -/
structure DatumCodec where
  blake : Blake2b256
  encodedDatumIsNumber : Bytes → Bool
  decodeRnd : Bytes → Bytes
  mergeRnds : List Bytes → Bytes
  encodeNumberDatum : Bytes → Int → MergeType → Bytes → Bytes

inductive HotStoreBinaryAction where
  | insertProduce (hash : Bytes) (data : List Bytes)
  | insertConsume (hash : Bytes) (continuations : List Bytes)
  | insertJoins (hash : Bytes) (joins : List Bytes)
  | deleteProduce (hash : Bytes)
  | deleteConsume (hash : Bytes)
  | deleteJoins (hash : Bytes)
  deriving DecidableEq

/-- The failures of a merge: the checks of number channels by what they saw, the others as they are. -/
inductive MergeFailure where
  | integerAddOverflow (channel : Bytes)
  | numberChannelRejected (channel : Bytes) (base diff : Int) (mergeType : MergeType)
  | history (error : HistoryError)
  deriving DecidableEq

def MergeFailure.toHistoryError : MergeFailure → HistoryError
  | .integerAddOverflow channel =>
    .mergeError ("IntegerAdd overflow combining mergeable channel " ++ displayHash channel)
  | .numberChannelRejected channel base diff mergeType =>
    .mergeError ("Number channel " ++ displayHash channel ++ " merge rejected: base " ++ toString base ++ " + diff " ++
      toString diff ++ " (" ++ mergeType.debug ++ ") overflows the channel range or yields a negative balance")
  | .history error => error

def ofHistory {α : Type} (result : Except HistoryError α) : Except MergeFailure α := result.mapError .history

section actions

variable (codec : DatumCodec) (base : BaseHistory HotStoreBinaryAction)

def multisetDiff (items toRemove : List Bytes) : List Bytes := (ChannelChange.cancelCommon items toRemove).1

def mergedRnd (added : List Bytes) : Bytes :=
  if added.toFinset.card = 1 then codec.decodeRnd (added.headD [])
  else codec.mergeRnds ((added.map codec.decodeRnd).toFinset.sort (· ≤ ·))

def createDatumEncoded (channel : Bytes) (num : Int) (mergeType : MergeType) (rnd : Bytes) :
    Except HistoryError Bytes :=
  match mergeType with
  | .integerAdd => .ok (codec.encodeNumberDatum channel num mergeType rnd)
  | .bitmaskOr =>
    if -2 ^ 63 ≤ num ∧ num < 2 ^ 63 then .ok (codec.encodeNumberDatum channel num mergeType rnd)
    else .error (.mergeError ("Number channel " ++ displayHash channel ++ " merged value " ++ toString num ++
      " does not fit an Int (" ++ mergeType.debug ++ ")"))

def calculateNumberChannelMerge (channel : Bytes) (diff : Int) (mergeType : MergeType)
    (changes : ChannelChange Bytes) : Except MergeFailure HotStoreBinaryAction := do
  let initNum := (← ofHistory (convertToReadNumber base.getData channel)).getD 0
  match applyMergeableValue initNum diff mergeType with
  | none => .error (.numberChannelRejected channel initNum diff mergeType)
  | some newVal =>
    let datumEncoded ← ofHistory (createDatumEncoded codec channel newVal mergeType (mergedRnd codec changes.added))
    return .insertProduce channel [datumEncoded]

def checkSingleValueCellNotOverfilled (channel : Bytes) (baseData : List (Datum ListParWithRandom))
    (baseBinary : List Bytes) (changes : ChannelChange Bytes) : Except HistoryError Unit :=
  if changes.added.isEmpty then .ok ()
  else
    let baseIsSingleNumber := baseData.length = 1 ∧ ∃ datum ∈ baseData.head?, (tryGetNumberWithRnd datum.a).isSome
    let addedAreNumbers := changes.added.all codec.encodedDatumIsNumber
    if ¬ baseIsSingleNumber ∧ ¬ (baseData.isEmpty ∧ addedAreNumbers) then .ok ()
    else
      let resultLen := (multisetDiff baseBinary changes.removed).length + changes.added.length
      if resultLen > 1 then
        .error (.mergeError ("single-value cell " ++ hexEncode channel ++ " would hold " ++ toString resultLen ++
          " values after merge; concurrent writes to a single-value (number) channel conflict"))
      else .ok ()

/-- A number channel is written with its diff. Any other channel that gains data is checked, unless it
is empty at the base and has a single writer. -/
def handleChannelChange (multiWriterChannels : Finset Bytes) (channel : Bytes) (changes : ChannelChange Bytes)
    (numberChs : NumberChannelsDiff) : Except MergeFailure (Option HotStoreBinaryAction) :=
  match numberChs.lookup channel with
  | some (diff, mergeType) => (calculateNumberChannelMerge codec base channel diff mergeType changes).map some
  | none => do
    if !changes.added.isEmpty then
      let baseData ← ofHistory (base.getData channel)
      if !baseData.isEmpty || channel ∈ multiWriterChannels then
        let baseBinary ← ofHistory (base.getDataProjBinary channel)
        ofHistory (checkSingleValueCellNotOverfilled codec channel baseData baseBinary changes)
    return none

def digestItems (items : List Bytes) : String :=
  "[" ++ ", ".intercalate ((items.take 4).map fun item => "\"" ++ hexEncode (item.take 8) ++ "\"") ++ "]"

def makeTrieAction (historyPointer : Bytes) (kind : String) (initValue : Bytes → Except HistoryError (List Bytes))
    (changes : ChannelChange Bytes) (removeAction : Bytes → HotStoreBinaryAction)
    (updateAction : Bytes → List Bytes → HotStoreBinaryAction) : Except HistoryError HotStoreBinaryAction := do
  let init ← initValue historyPointer
  let (kept, unmatched) := ChannelChange.cancelCommon init changes.removed
  if unmatched.length > 0 then
    throw (.mergeError ("channel " ++ hexEncode historyPointer ++ " [" ++ kind ++ "]: " ++ toString unmatched.length ++
      " removed item(s) absent from the base (base holds " ++ toString init.length ++ ", diff removes " ++
      toString changes.removed.length ++ ") — applied diffs are incoherent with the base state; base=" ++
      digestItems init ++ " removed=" ++ digestItems changes.removed))
  let newVal := kept ++ changes.added
  if newVal.isEmpty && !init.isEmpty then return removeAction historyPointer
  else if init ≠ newVal then return updateAction historyPointer newVal
  else throw (.mergeError
    "Merging logic error: empty channel change for produce or join when computing trie action.")

end actions

section trieActions

variable (codec : DatumCodec) (base : BaseHistory HotStoreBinaryAction)

inductive JoinActionKind where
  | addJoin (channels : List Bytes)
  | removeJoin (channels : List Bytes)

structure ConsumeAndJoinActions where
  consumeAction : HotStoreBinaryAction
  joinAction : Option JoinActionKind

/-- A change that cancelled out leaves the consume at the base; one that claims content and changes none is an error. -/
def consumeAndJoinActions (entry : Sigma fun _ : List Bytes => ChannelChange Bytes) :
    Except HistoryError (Option ConsumeAndJoinActions) := do
  let ⟨consumeChannels, change⟩ := entry
  if change.added.isEmpty && change.removed.isEmpty then return none
  let historyPointer := hashFromHashes codec.blake consumeChannels
  let init ← base.getContinuationsProjBinary historyPointer
  let newVal := multisetDiff init change.removed ++ change.added
  if init = newVal then
    throw (.mergeError "Merging logic error: empty consume change when computing trie action.")
  else if init.isEmpty then
    return some ⟨.insertConsume historyPointer newVal, some (.addJoin consumeChannels)⟩
  else if newVal.isEmpty then
    return some ⟨.deleteConsume historyPointer, some (.removeJoin consumeChannels)⟩
  else return some ⟨.insertConsume historyPointer newVal, none⟩

def produceTrieAction (handle : Bytes → ChannelChange Bytes → Except MergeFailure (Option HotStoreBinaryAction))
    (entry : Sigma fun _ : Bytes => ChannelChange Bytes) : Except MergeFailure (Option HotStoreBinaryAction) := do
  let ⟨historyPointer, changes⟩ := entry
  match ← handle historyPointer changes with
  | some action => return some action
  | none =>
    if changes.added.isEmpty && changes.removed.isEmpty then return none
    else
      let action ← ofHistory (makeTrieAction historyPointer "datum" base.getDataProjBinary changes .deleteProduce
        .insertProduce)
      return some action

def addJoinChange (joinData : Bytes) (add : Bool) (joins : AList fun _ : Bytes => ChannelChange Bytes)
    (channel : Bytes) : AList fun _ : Bytes => ChannelChange Bytes :=
  let current := (joins.lookup channel).getD ⟨[], []⟩
  joins.insert channel
    (if add then ⟨current.added ++ [joinData], current.removed⟩ else ⟨current.added, current.removed ++ [joinData]⟩)

def collectJoin (joinsMap : AList fun _ : List Bytes => Bytes) (joins : AList fun _ : Bytes => ChannelChange Bytes)
    (actions : ConsumeAndJoinActions) : Except HistoryError (AList fun _ : Bytes => ChannelChange Bytes) :=
  match actions.joinAction with
  | none => .ok joins
  | some kind =>
    let (channels, add) := match kind with
      | .addJoin channels => (channels, true)
      | .removeJoin channels => (channels, false)
    match joinsMap.lookup channels with
    | some joinData => .ok (channels.foldl (addJoinChange joinData add) joins)
    | none => .error (.mergeError "No ByteVector value for join found when merging when computing trie action.")

def computeTrieActions (multiWriterChannels : Finset Bytes) (changes : StateChange)
    (mergeableChs : NumberChannelsDiff) : Except MergeFailure (List HotStoreBinaryAction) := do
  let contChangesSorted := sortByKey (fun entry => hashFromHashes codec.blake entry.1) changes.contChanges.entries
  let consumeWithJoinActions ← ofHistory (contChangesSorted.mapM (consumeAndJoinActions codec base))
  let datumsChangesSorted := sortByKey Sigma.fst changes.datumsChanges.entries
  let produceTrieActions ← datumsChangesSorted.mapM (produceTrieAction base fun channel change =>
    handleChannelChange codec base multiWriterChannels channel change mergeableChs)
  let joinsChanges ← ofHistory
    (consumeWithJoinActions.reduceOption.foldlM (collectJoin changes.consumeChannelsToJoinSerializedMap) ∅)
  let joinsTrieActions ← ofHistory ((sortByKey Sigma.fst joinsChanges.entries).mapM fun entry =>
    makeTrieAction entry.1 "joins" base.getJoinsProjBinary entry.2 .deleteJoins .insertJoins)
  return produceTrieActions.reduceOption ++ consumeWithJoinActions.reduceOption.map (·.consumeAction) ++
    joinsTrieActions

end trieActions

section mergedState

variable {R : Type} [LinearOrder R] (codec : DatumCodec) (base : BaseHistory HotStoreBinaryAction)

def toMergeItems (toMerge : List (Branch R)) : List R :=
  (canonicalOrder toMerge).flatMap fun branch => branch.items.sort (· ≤ ·)

def allMergeableChannels (mergeableChannels : R → NumberChannelsDiff) (items : List R) :
    Except MergeFailure NumberChannelsDiff :=
  foldNumberChannels (fun channel existing incoming => .history (mergeTypeMismatch channel existing incoming))
    (fun channel _ _ => .integerAddOverflow channel) mergeableChannels items

def computeMergedState (resolved : ResolvedConflicts R) (stateChanges : R → StateChange)
    (mergeableChannels : R → NumberChannelsDiff) (multiWriterChannels : Finset Bytes) : Except MergeFailure Bytes := do
  let items := toMergeItems resolved.toMerge
  let allChanges := items.foldl (fun combined item => combined.combine (stateChanges item)) .empty
  let mergeable ← allMergeableChannels mergeableChannels items
  let trieActions ← computeTrieActions codec base multiWriterChannels allChanges mergeable
  ofHistory (base.applyTrieActions trieActions)

end mergedState

end F1r3Node.Merging
