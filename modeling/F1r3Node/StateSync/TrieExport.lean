import F1r3Node.History.RadixNode
import F1r3Node.Lib.Fuelled
import F1r3Node.Merging.NumberChannels

/-! # Export of a state in pages

The exporter walks the radix tree of a state depth first, from the node at which the last page ended, and stops right
after it has taken the asked number of nodes, before the leaves of the last one.
-/

namespace F1r3Node.StateSync

open Shared
open History
open Lib
open Merging (hexEncode)

inductive ExportError where
  | radixTree (error : RadixTreeError)
  | keyNotFound (message : String)
  | panicked (message : String)
  deriving DecidableEq

structure ExportDataSettings where
  flagNodePrefixes : Bool
  flagNodeKeys : Bool
  flagNodeValues : Bool
  flagLeafPrefixes : Bool
  flagLeafValues : Bool

structure ExportData where
  nodePrefixes : List Bytes
  nodeKeys : List Bytes
  nodeValues : List Bytes
  leafPrefixes : List Bytes
  leafValues : List Bytes

def emptyExportData : ExportData := ⟨[], [], [], [], []⟩

structure NodeData where
  pre : Bytes
  decoded : Node
  lastItemIndex : Option UInt8

structure NodePathData where
  hash : Bytes
  nodePrefix : Bytes
  restPrefix : Bytes
  path : List NodeData

structure StepData where
  path : List NodeData
  skip : Int
  take : Int
  expData : ExportData

section

variable (store : Bytes → Option Bytes) (settings : ExportDataSettings)

def decodeNode (bytes : Bytes) : Except ExportError Node := (tryDecode bytes).mapError .radixTree

def prefixNotFound (p : NodePathData) : ExportError :=
  .radixTree (.prefixError ("Radix Tree - Export error: node with prefix " ++
    hexEncode (p.nodePrefix ++ p.restPrefix) ++ " not found."))

def processChildItem (p : NodePathData) (node : Node) (head : UInt8) (tail : Bytes) : Except ExportError NodePathData :=
  match node head with
  | .nodePtr ptrPrefix ptr =>
    let (prefixCommon, prefixRest, ptrPrefixRest) := commonPrefix tail ptrPrefix
    if ptrPrefixRest ≠ [] then .error (prefixNotFound p)
    else .ok ⟨ptr, p.nodePrefix ++ head :: prefixCommon, prefixRest, ⟨p.nodePrefix, node, some head⟩ :: p.path⟩
  | _ => .error (prefixNotFound p)

def initNodePath (p : NodePathData) : Except ExportError (NodePathData ⊕ List NodeData) :=
  match store p.hash with
  | none => .error (.keyNotFound ("Radix Tree - Export error: node with key " ++ hexEncode p.hash ++ " not found."))
  | some bytes => do
    let decodedNode ← decodeNode bytes
    match p.restPrefix with
    | [] => pure (.inr (⟨p.nodePrefix, decodedNode, none⟩ :: p.path))
    | head :: tail => return .inl (← processChildItem p decodedNode head tail)

def indicesAfter : Option UInt8 → List UInt8
  | none => allBytes
  | some i => allBytes.drop (i.toNat + 1)

def nextItem (node : Node) : List UInt8 → Option (UInt8 × Item)
  | [] => none
  | i :: rest =>
    match node i with
    | .emptyItem => nextItem node rest
    | .leaf pre value =>
      if settings.flagLeafPrefixes || settings.flagLeafValues then some (i, .leaf pre value) else nextItem node rest
    | .nodePtr pre ptr => some (i, .nodePtr pre ptr)

def findNextNonEmptyItem (node : Node) (lastIdxOpt : Option UInt8) : Option (UInt8 × Item) :=
  nextItem settings node (indicesAfter lastIdxOpt)

/-- `push` where the flag asks for it. -/
def pushIf (flag : Bool) (items : List Bytes) (item : Bytes) : List Bytes := if flag then items ++ [item] else []

def addLeaf (p : StepData) (leafPrefix leafValue : Bytes) (itemIndex : UInt8) (currNodePrefix : Bytes)
    (newPath : List NodeData) : StepData :=
  if 0 < p.skip then { p with path := newPath }
  else { p with
    path := newPath
    expData := { p.expData with
      leafPrefixes :=
        pushIf settings.flagLeafPrefixes p.expData.leafPrefixes (currNodePrefix ++ itemIndex :: leafPrefix)
      leafValues := pushIf settings.flagLeafValues p.expData.leafValues leafValue } }

def addNodePtr (p : StepData) (ptrPrefix ptr : Bytes) (itemIndex : UInt8) (currNodePrefix : Bytes)
    (newPath : List NodeData) : Except ExportError StepData :=
  match store ptr with
  | none =>
    .error (.keyNotFound ("Radix Tree - Export error: node with key " ++ hexEncode ptr ++ " not found. here"))
  | some childNv => do
    let childDecoded ← decodeNode childNv
    let childNp := currNodePrefix ++ itemIndex :: ptrPrefix
    let childPath := ⟨childNp, childDecoded, none⟩ :: newPath
    if 0 < p.skip then pure { p with path := childPath, skip := p.skip - 1 }
    else pure { p with
      path := childPath
      take := p.take - 1
      expData := { p.expData with
        nodePrefixes := pushIf settings.flagNodePrefixes p.expData.nodePrefixes childNp
        nodeKeys := pushIf settings.flagNodeKeys p.expData.nodeKeys ptr
        nodeValues := pushIf settings.flagNodeValues p.expData.nodeValues childNv } }

def addElement (p : StepData) (itemIndex : UInt8) (item : Item) (curr : NodeData) (pathTail : List NodeData) :
    Except ExportError StepData :=
  let newPath := { curr with lastItemIndex := some itemIndex } :: pathTail
  match item with
  | .emptyItem => .ok { p with path := newPath }
  | .leaf pre value => .ok (addLeaf settings p pre value itemIndex curr.pre newPath)
  | .nodePtr pre ptr => addNodePtr store settings p pre ptr itemIndex curr.pre newPath

def exportStep (p : StepData) : Except ExportError (StepData ⊕ (ExportData × Option Bytes)) :=
  match p.path with
  | [] => .ok (.inr (p.expData, none))
  | curr :: pathTail =>
    if p.skip = 0 ∧ p.take = 0 then .ok (.inr (p.expData, some curr.pre))
    else
      match findNextNonEmptyItem settings curr.decoded curr.lastItemIndex with
      | some (itemIndex, item) => return .inl (← addElement store settings p itemIndex item curr pathTail)
      | none => .ok (.inl { p with path := pathTail })

def rootExportData (rootHash rootNodeSer : Bytes) : ExportData where
  nodePrefixes := if settings.flagNodePrefixes then [[]] else []
  nodeKeys := if settings.flagNodeKeys then [rootHash] else []
  -- the source asks the leaf flag here
  nodeValues := if settings.flagLeafValues then [rootNodeSer] else []
  leafPrefixes := []
  leafValues := []

def startParams (rootHash rootNodeSer : Bytes) (lastPrefix : Option Bytes) (skipSize takeSize : Int)
    (path : List NodeData) : StepData :=
  match lastPrefix with
  | some _ => ⟨path, skipSize, takeSize, emptyExportData⟩
  | none =>
    if 0 < skipSize then ⟨path, skipSize - 1, takeSize, emptyExportData⟩
    else ⟨path, skipSize, takeSize - 1, rootExportData settings rootHash rootNodeSer⟩

def sequentialExport (rootHash : Bytes) (lastPrefix : Option Bytes) (skipSize takeSize : Int) :
    Fuelled ExportError (ExportData × Option Bytes) :=
  if skipSize = 0 ∧ takeSize = 0 then
    throw (.panicked "Export error: invalid initial conditions (skipSize, takeSize)==(0,0).")
  else match store rootHash with
    | none => pure (emptyExportData, none)
    | some rootNodeSer => do
      let path ← Fuelled.loop (fun p => .ofExcept (initNodePath store p)) ⟨rootHash, [], lastPrefix.getD [], []⟩
      Fuelled.loop (fun p => .ofExcept (exportStep store settings p))
        (startParams settings rootHash rootNodeSer lastPrefix skipSize takeSize path)

abbrev NodePath := List (Bytes × Option UInt8)

structure TrieNode where
  hash : Bytes
  isLeaf : Bool
  path : NodePath

def invalidPath : ExportError := .radixTree (.prefixError "RSpace Exporter: Invalid path during export")

def createLastPrefix : List Bytes → Except ExportError (Option Bytes)
  | [] => .ok none
  | size :: b1 :: b2 :: b3 :: b4 :: _ =>
    match size with
    | [] => .error invalidPath
    | sizeByte :: _ => .ok (some ((b1 ++ b2 ++ b3 ++ b4).take sizeByte.toNat))
  | _ => .error invalidPath

def constructNodes (leafKeys nodeKeys : List Bytes) : List TrieNode :=
  leafKeys.map (fun key => ⟨key, true, []⟩) ++ nodeKeys.map fun key => ⟨key, false, []⟩

def constructLastPath (lastPrefix rootHash : Bytes) : Except ExportError NodePath :=
  if 128 < lastPrefix.length then .error (.panicked "attempt to subtract with overflow")
  else
    let sizeArray := UInt8.ofNat lastPrefix.length :: List.replicate 31 0
    let prefix128Array := lastPrefix ++ List.replicate (128 - lastPrefix.length) 0
    .ok [(rootHash, none), (sizeArray, none), (prefix128Array.take 32, none),
      ((prefix128Array.drop 32).take 32, none), ((prefix128Array.drop 64).take 32, none),
      ((prefix128Array.drop 96).take 32, none)]

def constructLastNode (lastKey : Bytes) (lastPath : NodePath) : List TrieNode := [⟨lastKey, false, lastPath⟩]

def traverseSettings (flagLeafPrefixes : Bool) : ExportDataSettings := ⟨false, true, false, flagLeafPrefixes, true⟩

/-- The nodes and the leaves with their keys; `take` counts the nodes only. -/
def traverse (startPath : NodePath) (skip take : Int) (flagLeafPrefixes : Bool) :
    Fuelled ExportError (List TrieNode × List (Bytes × Bytes)) :=
  match startPath.map Prod.fst with
  | [] => pure ([], [])
  | rootHash :: prefixVec => do
    let lastPrefix ← .ofExcept (createLastPrefix prefixVec)
    let (data, newLastPrefixOpt) ← sequentialExport store (traverseSettings flagLeafPrefixes) rootHash lastPrefix skip take
    let nodes := constructNodes data.leafValues data.nodeKeys
    let lastPath ← match newLastPrefixOpt with
      | some bytes => .ofExcept (constructLastPath bytes rootHash)
      | none => pure []
    let lastHistoryNode := match data.nodeKeys.getLast? with
      | some key => constructLastNode key lastPath
      | none => []
    pure (nodes.dropLast ++ lastHistoryNode, data.leafValues.zip data.leafPrefixes)

def tryTraverseHistory (startPath : NodePath) (skip take : Int) : Fuelled ExportError (List TrieNode) := do
  let (nodes, _) ← traverse store startPath skip take false
  pure nodes

def lastPath (nodes : List TrieNode) : Option NodePath :=
  nodes.getLast?.map fun lastEntry => lastEntry.path ++ [(lastEntry.hash, none)]

/-- The keys of a page; its items are what the stores hold under them. -/
structure Page where
  historyKeys : Finset Bytes
  dataKeys : Finset Bytes
  lastPath : NodePath

def keysOf (leaf : Bool) (nodes : List TrieNode) : Finset Bytes :=
  ((nodes.filter fun node => node.isLeaf == leaf).map TrieNode.hash).toFinset

def getHistoryAndData (startPath : NodePath) (skip take : Int) : Fuelled ExportError Page := do
  let nodes ← tryTraverseHistory store startPath skip take
  match lastPath nodes with
  | none => throw (.keyNotFound "RSpace Exporter: empty history for the requested start path")
  | some path => pure ⟨keysOf false nodes, keysOf true nodes, path⟩

structure SyncState where
  path : NodePath
  history : Finset Bytes
  data : Finset Bytes

def syncStep (pageSize : Nat) (s : SyncState) : Fuelled ExportError (SyncState ⊕ (Finset Bytes × Finset Bytes)) := do
  let page ← getHistoryAndData store s.path 0 pageSize
  let history := s.history ∪ page.historyKeys
  let data := s.data ∪ page.dataKeys
  if page.lastPath.length = 1 then pure (.inr (history, data)) else pure (.inl ⟨page.lastPath, history, data⟩)

def syncState (root : Bytes) (pageSize : Nat) : Fuelled ExportError (Finset Bytes × Finset Bytes) :=
  Fuelled.loop (syncStep store pageSize) ⟨[(root, none)], ∅, ∅⟩

end

end F1r3Node.StateSync
