import F1r3Node.History.RadixHistory
import F1r3Node.Space.RSpace

/-! # Checkpoints of the hot store

Continuations are keyed by the hash of the sorted hashes of their channels, so two orders of the same channels share a
key.
-/

namespace F1r3Node.Space

open Shared History

/-- `bincode` for one type. -/
structure Codec (α : Type) where
  encode : α → Bytes
  decode : Bytes → Option α
  decode_encode : ∀ a, decode (encode a) = some a

inductive PersistedData where
  | joins (bytes : Bytes)
  | data (bytes : Bytes)
  | continuations (bytes : Bytes)
  deriving DecidableEq

/-- What the repository is given besides the space: the order in which the caches of the tree list
their keys, and the codecs of what it stores. -/
structure RepositoryEnv (C P A K : Type) where
  space : SpaceEnv C P A K
  order : Nat → List Bytes → List Bytes
  perm_order : ∀ clock keys, (order clock keys).Perm keys
  datum : Codec (Datum A)
  continuation : Codec (WaitingContinuation P K)
  join : Codec (List C)
  vec : Codec (List Bytes)
  persisted : Codec PersistedData

def RepositoryEnv.tree {C P A K : Type} (env : RepositoryEnv C P A K) : TreeEnv :=
  ⟨env.space.blake, env.order, env.perm_order⟩

def RepositoryEnv.hash {C P A K : Type} (env : RepositoryEnv C P A K) (bytes : Bytes) :
    History.Blake2b256Hash :=
  ⟨env.space.blake.hash bytes, env.space.blake.length_hash bytes⟩

inductive HotStoreAction (C P A K : Type) where
  | insertData (channel : C) (data : List (Datum A))
  | insertJoins (channel : C) (joins : List (List C))
  | insertContinuations (channels : List C) (continuations : List (WaitingContinuation P K))
  | deleteData (channel : C)
  | deleteJoins (channel : C)
  | deleteContinuations (channels : List C)

inductive HotStoreTrieAction (C P A K : Type) where
  | trieInsertProduce (hash : Bytes) (data : List (Datum A))
  | trieInsertJoins (hash : Bytes) (joins : List (List C))
  | trieInsertConsume (hash : Bytes) (continuations : List (WaitingContinuation P K))
  | trieDeleteProduce (hash : Bytes)
  | trieDeleteJoins (hash : Bytes)
  | trieDeleteConsume (hash : Bytes)

section

variable {C P A K : Type} [DecidableEq C]

def entryAction {α β γ : Type} (insert : α → List β → γ) (delete : α → γ) (entry : (_ : α) × List β) : γ :=
  if entry.2 = [] then delete entry.1 else insert entry.1 entry.2

def HotStore.changes (s : HotStore C P A K) : List (HotStoreAction C P A K) :=
  s.continuations.entries.map (entryAction .insertContinuations .deleteContinuations) ++
    s.data.entries.map (entryAction .insertData .deleteData) ++
    s.joins.entries.map (entryAction .insertJoins .deleteJoins)

variable (env : RepositoryEnv C P A K)

def transform : HotStoreAction C P A K → HotStoreTrieAction C P A K
  | .insertData channel data => .trieInsertProduce (env.space.hash channel) data
  | .insertContinuations channels continuations =>
    .trieInsertConsume (env.space.hashFromVec channels) continuations
  | .insertJoins channel joins => .trieInsertJoins (env.space.hash channel) joins
  | .deleteData channel => .trieDeleteProduce (env.space.hash channel)
  | .deleteContinuations channels => .trieDeleteConsume (env.space.hashFromVec channels)
  | .deleteJoins channel => .trieDeleteJoins (env.space.hash channel)

/-- `encode_datums`, `encode_continuations` and `encode_joins`: the encoded items, sorted. -/
def encodeSorted {α : Type} (codec : Codec α) (items : List α) : Bytes :=
  env.vec.encode ((items.map codec.encode).insertionSort (· ≤ ·))

/-- `decode_datums` and its siblings; `none` stands for a panic. -/
def decodeAll {α : Type} (codec : Codec α) (bytes : Bytes) : Option (List α) :=
  (env.vec.decode bytes).bind fun items => items.mapM codec.decode

/-- The `bincode` image of a leaf, which is the same for the three kinds. -/
def serializeLeaf (bytes : Bytes) : Bytes := toLeBytes 8 bytes.length ++ bytes

def serializeHash (hash : Bytes) : Bytes := toLeBytes 8 hash.length ++ hash

def prefixDatum : UInt8 := 0x00

def prefixKont : UInt8 := 0x01

def prefixJoins : UInt8 := 0x02

def prependBytes (element : UInt8) (bytes : Bytes) : Bytes := element :: bytes

abbrev ColdAction := Bytes × Option PersistedData

def insertLeaf (element : UInt8) (kind : Bytes → PersistedData) (key bytes : Bytes) :
    ColdAction × HistoryAction :=
  let hash := env.hash (serializeLeaf bytes)
  ((hash.1, some (kind bytes)), .insert (prependBytes element key) hash)

def calculateStorageActions : HotStoreTrieAction C P A K → ColdAction × HistoryAction
  | .trieInsertProduce hash data => insertLeaf env prefixDatum .data hash (encodeSorted env env.datum data)
  | .trieInsertConsume hash continuations =>
    insertLeaf env prefixKont .continuations hash (encodeSorted env env.continuation continuations)
  | .trieInsertJoins hash joins => insertLeaf env prefixJoins .joins hash (encodeSorted env env.join joins)
  | .trieDeleteProduce hash => ((hash, none), .delete (prependBytes prefixDatum hash))
  | .trieDeleteConsume hash => ((hash, none), .delete (prependBytes prefixKont hash))
  | .trieDeleteJoins hash => ((hash, none), .delete (prependBytes prefixJoins hash))

structure HistoryRepository where
  currentHistory : RadixHistory
  leafStore : Bytes → Option Bytes

def putIfAbsent (store : Bytes → Option Bytes) (kvPairs : List (Bytes × Bytes)) : Bytes → Option Bytes :=
  putAll store (kvPairs.filter fun kv => (store kv.1).isNone)

def coldLeaves (storageActions : List (ColdAction × HistoryAction)) : List (Bytes × PersistedData) :=
  storageActions.filterMap fun action => action.1.2.map fun data => (action.1.1, data)

def HistoryRepository.doCheckpoint (repo : HistoryRepository)
    (trieActions : List (HotStoreTrieAction C P A K)) : Except Fault HistoryRepository := do
  if trieActions = [] then return repo
  let storageActions := trieActions.map (calculateStorageActions env)
  let leaves := (coldLeaves storageActions).map fun leaf =>
    (serializeHash leaf.1, env.persisted.encode leaf.2)
  let leafStore := putIfAbsent repo.leafStore leaves
  let history ← repo.currentHistory.process env.tree (storageActions.map Prod.snd)
  return ⟨history, leafStore⟩

def HistoryRepository.checkpoint (repo : HistoryRepository) (actions : List (HotStoreAction C P A K)) :
    Except Fault HistoryRepository :=
  if actions = [] then .ok repo else repo.doCheckpoint env (actions.map (transform env))

structure RSpaceHistoryReader where
  targetHistory : RadixHistory
  leafStore : Bytes → Option Bytes

def HistoryRepository.getHistoryReader (repo : HistoryRepository) (stateHash : Bytes) :
    Except Fault RSpaceHistoryReader := do
  let history ← repo.currentHistory.reset env.tree stateHash
  return ⟨history, repo.leafStore⟩

def RSpaceHistoryReader.fetchData (reader : RSpaceHistoryReader) (element : UInt8) (key : Bytes) :
    Except Fault (Option PersistedData) := do
  match ← reader.targetHistory.read env.tree (prependBytes element key) with
  | none => return none
  | some hash =>
    match (reader.leafStore hash).or (reader.leafStore (serializeHash hash)) with
    | none => return none
    | some bytes =>
      match env.persisted.decode bytes with
      | some data => return some data
      | none => throw (.assertion "RSpace History Reader Impl: Failed to deserialize persisted leaf" hash)

def RSpaceHistoryReader.getContinuationsProj (reader : RSpaceHistoryReader) (key : Bytes) :
    Except Fault (List (WaitingContinuation P K)) := do
  match ← reader.fetchData env prefixKont key with
  | some (.continuations bytes) =>
    match decodeAll env env.continuation bytes with
    | some continuations => return continuations
    | none => throw (.assertion "Serializers: Unable to deserialize continuations" key)
  | some _ => throw (.assertion "Found unexpected leaf while looking for continuations" key)
  | none => return []

def RSpaceHistoryReader.getContinuations (reader : RSpaceHistoryReader) (channels : List C) :
    Except Fault (List (WaitingContinuation P K)) :=
  reader.getContinuationsProj env (env.space.hashFromVec channels)

/-- `create_checkpoint`: the next repository with the reader of its root. -/
def createCheckpoint (repo : HistoryRepository) (st : RSpace C P A K) :
    Except Fault (HistoryRepository × RSpaceHistoryReader) := do
  let next ← repo.checkpoint env st.store.changes
  let reader ← next.getHistoryReader env next.currentHistory.rootHash
  return (next, reader)

def HistoryRepository.empty : Except Fault HistoryRepository := do
  let history ← RadixHistory.create env.tree (emptyRootNodeHash env.tree) fun _ => none
  return ⟨history, fun _ => none⟩

end

end F1r3Node.Space
