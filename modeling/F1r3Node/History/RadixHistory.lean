import F1r3Node.History.RadixTree
import Mathlib.Data.List.Dedup

/-! # Histories: roots over one store

A history is a root node with the caches of its tree. Processing a batch yields a new
history over the store extended by the nodes of the batch.
-/

namespace F1r3Node.History

open Shared

structure RadixHistory where
  rootHash : Bytes
  rootNode : Node
  imple : RadixTreeImpl

section

variable (env : TreeEnv)

def emptyRootNodeHash : Bytes := env.blake.hash (Node.bytes emptyNode)

def runFresh {α : Type} (store : Bytes → Option Bytes) (x : TreeM α) : Except Fault (α × RadixTreeImpl) :=
  match x.run (RadixTreeImpl.new store) with
  | .ok a imple => .ok (a, imple)
  | .error fault _ => .error fault

def RadixHistory.create (root : Bytes) (store : Bytes → Option Bytes) : Except Fault RadixHistory := do
  let (node, imple) ← runFresh store (loadNode env root true)
  return ⟨root, node, imple⟩

def hasNoDuplicates (actions : List HistoryAction) : Bool :=
  (actions.map HistoryAction.key).dedup.length = actions.length

def RadixHistory.read (h : RadixHistory) (key : Bytes) : Except Fault (Option Bytes) :=
  match (History.read env h.rootNode key).run h.imple with
  | .ok value _ => .ok value
  | .error fault _ => .error fault

def maxDepth (actions : List HistoryAction) : Nat :=
  (actions.map fun a => a.key.length).foldr max 0 + 1

/-- The history for the outcome of `make_actions`, over fresh caches. -/
def RadixHistory.stageRoot (h : RadixHistory) :
    Option Node → TreeM (RadixHistory × List (Bytes × Bytes))
  | some newRootNode => do
    let rootHash ← saveNode env newRootNode
    let nodes ← pendingWrites
    return (⟨rootHash, newRootNode, RadixTreeImpl.new h.imple.store⟩, nodes)
  | none => return (⟨h.rootHash, h.rootNode, RadixTreeImpl.new h.imple.store⟩, [])

def RadixHistory.stage (h : RadixHistory) (actions : List HistoryAction) :
    Except Fault (RadixHistory × List (Bytes × Bytes)) :=
  if ¬ hasNoDuplicates actions then
    .error (.actionError "Cannot process duplicate actions on one key.")
  else
    let staged : TreeM (RadixHistory × List (Bytes × Bytes)) := do
      h.stageRoot env (← makeActions env (maxDepth actions) h.rootNode actions)
    match staged.run h.imple with
    | .ok result _ => .ok result
    | .error fault _ => .error fault

def putAll (store : Bytes → Option Bytes) (nodes : List (Bytes × Bytes)) : Bytes → Option Bytes :=
  nodes.foldl (fun store kv => Function.update store kv.1 (some kv.2)) store

def RadixHistory.process (h : RadixHistory) (actions : List HistoryAction) : Except Fault RadixHistory := do
  let (next, nodes) ← h.stage env actions
  return { next with imple := { next.imple with store := putAll next.imple.store nodes } }

def RadixHistory.reset (h : RadixHistory) (root : Bytes) : Except Fault RadixHistory :=
  RadixHistory.create env root h.imple.store

def RadixHistory.processAll (h : RadixHistory) (batches : List (List HistoryAction)) :
    Except Fault RadixHistory :=
  batches.foldlM (fun h actions => h.process env actions) h

end

end F1r3Node.History
