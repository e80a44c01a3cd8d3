import F1r3Node.History.RadixNode
import Mathlib.Data.List.AList

/-! # The radix tree over a key-value store

The groups of a batch are processed here one after another; in the source they run in parallel and share nothing but
the two caches.
-/

namespace F1r3Node.History

open Shared

abbrev Blake2b256Hash := { b : Bytes // b.length = 32 }

inductive HistoryAction where
  | insert (key : Bytes) (hash : Blake2b256Hash)
  | delete (key : Bytes)

def HistoryAction.key : HistoryAction → Bytes
  | .insert key _ => key
  | .delete key => key

/-- The digest, and the unspecified order in which a concurrent map lists its keys. -/
structure TreeEnv where
  blake : Blake2b256
  order : Nat → List Bytes → List Bytes
  perm_order : ∀ clock keys, (order clock keys).Perm keys

structure RadixTreeImpl where
  store : Bytes → Option Bytes
  cacheR : AList fun _ : Bytes => Node
  cacheW : AList fun _ : Bytes => Bytes
  clock : Nat

def RadixTreeImpl.new (store : Bytes → Option Bytes) : RadixTreeImpl := ⟨store, ∅, ∅, 0⟩

abbrev TreeM := EStateM Fault RadixTreeImpl

def readCacheMaxItems : Nat := 4096

def readCacheTrimTarget : Nat := 2048

section

variable (env : TreeEnv)

def RadixTreeImpl.enforceReadCacheBounds (t : RadixTreeImpl) : RadixTreeImpl :=
  if t.cacheR.keys.length ≤ readCacheMaxItems then t
  else
    let numberToRemove := t.cacheR.keys.length - readCacheTrimTarget
    let keys := (env.order t.clock t.cacheR.keys).take numberToRemove
    { t with cacheR := keys.foldl (fun c k => c.erase k) t.cacheR, clock := t.clock + 1 }

def RadixTreeImpl.cacheNode (t : RadixTreeImpl) (ptr : Bytes) (node : Node) : RadixTreeImpl :=
  RadixTreeImpl.enforceReadCacheBounds env { t with cacheR := t.cacheR.insert ptr node }

def hashNode (node : Node) : Except Fault (Bytes × Bytes) := do
  let nodeBytes ← encode node
  return (env.blake.hash nodeBytes, nodeBytes)

def loadNode (nodePtr : Bytes) (noAssert : Bool) : TreeM Node := do
  let t ← get
  match t.cacheR.lookup nodePtr with
  | some node => return node
  | none =>
    match t.store nodePtr with
    | some bytes =>
      match tryDecode bytes with
      | .ok node =>
        set (t.cacheNode env nodePtr node)
        return node
      | .error _ => throw (.assertion "Error during deserialization" nodePtr)
    | none =>
      if noAssert then return emptyNode
      else throw (.assertion "Missing node in database." nodePtr)

def saveNode (node : Node) : TreeM Bytes := do
  match hashNode env node with
  | .error fault => throw fault
  | .ok (nodeBytesHash, nodeBytes) =>
    let t ← get
    match t.cacheR.lookup nodeBytesHash with
    | some v =>
      if v ≠ node then
        throw (.assertion "Radix Tree - Collision in cache: record has already existed." nodeBytesHash)
    | none => set (t.cacheNode env nodeBytesHash node)
    modify fun t => { t with cacheW := t.cacheW.insert nodeBytesHash nodeBytes }
    return nodeBytesHash

def pendingWrites : TreeM (List (Bytes × Bytes)) := do
  let t ← get
  let kvPairs := t.cacheW.entries.map fun e => (e.1, e.2)
  let kvCollision := kvPairs.filter fun kv => (t.store kv.1).isSome ∧ t.store kv.1 ≠ some kv.2
  match kvCollision with
  | first :: _ => throw (.radixTree (.collisionError kvCollision.length first.1))
  | [] => return kvPairs.filter fun kv => (t.store kv.1).isNone

/-- `read_at_cached`; the fuel is the length of the key. -/
def readAt : Nat → Node → Bytes → TreeM (Option Bytes)
  | _, _, [] => return none
  | 0, _, _ :: _ => return none
  | fuel + 1, currNode, head :: prefixTail =>
    match currNode head with
    | .emptyItem => return none
    | .leaf leafPrefix value => return if leafPrefix = prefixTail then some value else none
    | .nodePtr ptrPrefix ptr =>
      if ptrPrefix.isPrefixOf prefixTail then
        match prefixTail.drop ptrPrefix.length with
        | [] => return none
        | next :: prefixRest => do
          let node ← loadNode env ptr false
          readAt fuel node (next :: prefixRest)
      else return none

def read (startNode : Node) (startPrefix : Bytes) : TreeM (Option Bytes) :=
  readAt env startPrefix.length startNode startPrefix

def createNodeFromItem : Item → TreeM Node
  | .emptyItem => return emptyNode
  | .leaf [] _ => throw (.assertion "Impossible to create a node. LeafPrefix should be non empty." [])
  | .leaf (index :: leafPrefixTail) leafValue =>
    return Function.update emptyNode index (.leaf leafPrefixTail leafValue)
  | .nodePtr [] _ => throw (.assertion "Impossible to create a node. NodePtrPrefix should be non empty." [])
  | .nodePtr (index :: nodePtrPrefixTail) ptr =>
    return Function.update emptyNode index (.nodePtr nodePtrPrefixTail ptr)

def constructNodeFromItem : Item → TreeM Node
  | .nodePtr [] ptr => loadNode env ptr false
  | item => createNodeFromItem item

def Node.occupied (node : Node) : List UInt8 := allBytes.filter fun i => node i ≠ .emptyItem

def Item.prepend (pre : Bytes) : Item → Item
  | .emptyItem => .emptyItem
  | .leaf leafPrefix value => .leaf (pre ++ leafPrefix) value
  | .nodePtr nodePtrPrefix ptr => .nodePtr (pre ++ nodePtrPrefix) ptr

def saveNodeAndCreateItem (node : Node) (pre : Bytes) (compaction : Bool) : TreeM Item := do
  if compaction then
    match node.occupied with
    | [] => return .emptyItem
    | [idxItem] => return (node idxItem).prepend (pre ++ [idxItem])
    | _ => return .nodePtr pre (← saveNode env node)
  else return .nodePtr pre (← saveNode env node)

def splitNode (head : UInt8) (item : Item) (insHead : UInt8) (insTail insValue : Bytes) : Node :=
  Function.update (Function.update emptyNode head item) insHead (.leaf insTail insValue)

/-- `update`; the fuel exceeds the length of the inserted prefix. -/
def update : Nat → Item → Bytes → Bytes → TreeM (Option Item)
  | 0, _, insPrefix, _ => throw (.assertion "unreachable" insPrefix)
  | _ + 1, .emptyItem, insPrefix, insValue => return some (.leaf insPrefix insValue)
  | _ + 1, .leaf leafPrefix leafValue, insPrefix, insValue =>
    if leafPrefix.length ≠ insPrefix.length then
      throw (.assertion "Radix Tree: All Radix keys should be same length." [])
    else if leafPrefix = insPrefix then
      return if insValue = leafValue then none else some (.leaf insPrefix insValue)
    else
      match commonPrefix insPrefix leafPrefix with
      | (comm, insHead :: insTail, leafHead :: leafTail) => do
        let node := splitNode leafHead (.leaf leafTail leafValue) insHead insTail insValue
        return some (← saveNodeAndCreateItem env node comm false)
      | _ => throw (.assertion "called `Option::unwrap()` on a `None` value" [])
  | fuel + 1, .nodePtr ptrPrefix ptr, insPrefix, insValue =>
    if insPrefix.length ≤ ptrPrefix.length then
      throw (.assertion "Radix Tree: Radix key should be longer than NodePtr key." [])
    else
      match commonPrefix insPrefix ptrPrefix with
      | (comm, insHead :: insTail, []) => do
        let childNode ← loadNode env ptr false
        match ← update fuel (childNode insHead) insTail insValue with
        | some childItem =>
          return some (← saveNodeAndCreateItem env (Function.update childNode insHead childItem) comm false)
        | none => return none
      | (comm, insHead :: insTail, ptrHead :: ptrTail) => do
        let node := splitNode ptrHead (.nodePtr ptrTail ptr) insHead insTail insValue
        return some (← saveNodeAndCreateItem env node comm false)
      | (_, [], _) => throw (.assertion "called `Option::unwrap()` on a `None` value" [])

/-- `delete`; the fuel exceeds the length of the deleted prefix. -/
def delete : Nat → Item → Bytes → TreeM (Option Item)
  | 0, _, delPrefix => throw (.assertion "unreachable" delPrefix)
  | _ + 1, .emptyItem, _ => return none
  | _ + 1, .leaf leafPrefix _, delPrefix => return if leafPrefix = delPrefix then some .emptyItem else none
  | fuel + 1, .nodePtr ptrPrefix ptr, delPrefix =>
    match commonPrefix delPrefix ptrPrefix with
    | (comm, delHead :: delTail, []) => do
      let childNode ← loadNode env ptr false
      match ← delete fuel (childNode delHead) delTail with
      | some childItem =>
        return some (← saveNodeAndCreateItem env (Function.update childNode delHead childItem) comm true)
      | none => return none
    | _ => return none

def clearingDeleteActions (actions : List HistoryAction) (item : Item) : List HistoryAction :=
  let notExistInsertAction := actions.all fun
    | .insert _ _ => false
    | .delete _ => true
  if item = .emptyItem ∧ notExistInsertAction then [] else actions

def HistoryAction.trimKey : HistoryAction → HistoryAction
  | .insert key hash => .insert key.tail hash
  | .delete key => .delete key.tail

def trimKeys (actions : List HistoryAction) : List HistoryAction := actions.map HistoryAction.trimKey

/-- The groups of a `BTreeMap` keyed by the first byte, each in the order of the batch. -/
def grouping (actions : List HistoryAction) : Except Fault (List (UInt8 × List HistoryAction)) :=
  if actions.any fun a => a.key.isEmpty then
    .error (.radixTree (.prefixError "The length of all prefixes in the subtree must be the same."))
  else
    .ok ((allBytes.map fun i => (i, actions.filter fun a => a.key.head? = some i)).filter
      fun group => ¬ group.2.isEmpty)

def processOneAction (action : HistoryAction) (item : Item) : TreeM (Option Item) :=
  match action with
  | .insert key hash => update env key.length item key.tail hash.1
  | .delete key => delete env key.length item key.tail

section

variable (makeActions : Node → List HistoryAction → TreeM (Option Node))

def processNonEmptyActions (actions : List HistoryAction) (item : Item) : TreeM (Option Item) := do
  let createdNode ← constructNodeFromItem env item
  match ← makeActions createdNode (trimKeys actions) with
  | some newNode => return some (← saveNodeAndCreateItem env newNode [] true)
  | none => return none

def processSeveralActions (actions : List HistoryAction) (item : Item) : TreeM (Option Item) :=
  match clearingDeleteActions actions item with
  | [] => return none
  | clearedActions => processNonEmptyActions env makeActions clearedActions item

/-- The work of `process_grouped_actions` on one group. -/
def processGroup (currNode : Node) (group : UInt8 × List HistoryAction) : TreeM (UInt8 × Option Item) :=
  match group with
  | (itemIdx, [action]) => return (itemIdx, ← processOneAction env action (currNode itemIdx))
  | (itemIdx, actions) => return (itemIdx, ← processSeveralActions env makeActions actions (currNode itemIdx))

end

def updateItem (node : Node) (result : UInt8 × Option Item) : Node :=
  match result.2 with
  | some newItem => Function.update node result.1 newItem
  | none => node

def updateItems (node : Node) (newGroupItems : List (UInt8 × Option Item)) : Node :=
  newGroupItems.foldl updateItem node

/-- `make_actions`; the fuel exceeds the length of every key. -/
def makeActions : Nat → Node → List HistoryAction → TreeM (Option Node)
  | 0, _, _ => throw (.assertion "unreachable" [])
  | fuel + 1, currNode, actions =>
    match grouping actions with
    | .error fault => throw fault
    | .ok groupedActions => do
      let newGroupItems ← groupedActions.mapM (processGroup env (makeActions fuel) currNode)
      let newCurNode := updateItems currNode newGroupItems
      return if newCurNode ≠ currNode then some newCurNode else none

end

end F1r3Node.History
