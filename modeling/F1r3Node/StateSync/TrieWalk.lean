import F1r3Node.StateSync.TrieExport

/-! # The walk of the exporter

The path of the exporter is a stack of nodes that are partly walked. The prefix of a node leads back to the stack at
which the walk had reached it.
-/

namespace F1r3Node.StateSync

open Shared
open History
open Lib

inductive Visit where
  | node (pre hash : Bytes)
  | leaf (value : Bytes)
  deriving DecidableEq

def Holds (store : Bytes → Option Bytes) (hash : Bytes) (node : Node) : Prop :=
  ∃ bytes, store hash = some bytes ∧ decodeNode bytes = .ok node

/-- The visits below a node with the given prefix, over the items at the given indices. -/
inductive Walk (store : Bytes → Option Bytes) : Bytes → Node → List UInt8 → List Visit → Prop
  | done {pre : Bytes} {node : Node} : Walk store pre node [] []
  | empty {pre : Bytes} {node : Node} {i : UInt8} {rest : List UInt8} {visits : List Visit}
      (hItem : node i = .emptyItem) (hRest : Walk store pre node rest visits) : Walk store pre node (i :: rest) visits
  | leaf {pre : Bytes} {node : Node} {i : UInt8} {rest : List UInt8} {visits : List Visit} {p value : Bytes}
      (hItem : node i = .leaf p value) (hRest : Walk store pre node rest visits) :
      Walk store pre node (i :: rest) (.leaf value :: visits)
  | sub {pre : Bytes} {node child : Node} {i : UInt8} {rest : List UInt8} {inner visits : List Visit} {p ptr : Bytes}
      (hItem : node i = .nodePtr p ptr) (hChild : Holds store ptr child)
      (hInner : Walk store (pre ++ i :: p) child allBytes inner) (hRest : Walk store pre node rest visits) :
      Walk store pre node (i :: rest) (.node (pre ++ i :: p) ptr :: (inner ++ visits))

inductive Pending (store : Bytes → Option Bytes) : List NodeData → List Visit → Prop
  | nil : Pending store [] []
  | cons {top : NodeData} {rest : List NodeData} {visits later : List Visit}
      (hTop : Walk store top.pre top.decoded (indicesAfter top.lastItemIndex) visits)
      (hRest : Pending store rest later) : Pending store (top :: rest) (visits ++ later)

variable {store : Bytes → Option Bytes}

variable {k : Nat}

theorem drop_allBytes {i : UInt8} {rest : List UInt8} (h : allBytes.drop k = i :: rest) :
    rest = indicesAfter (some i) := by
  have hk : k < allBytes.length := by
    by_contra hGe
    rw [List.drop_eq_nil_of_le (not_lt.mp hGe)] at h
    cases h
  rw [List.drop_eq_getElem_cons hk] at h
  obtain ⟨hi, hRest⟩ := List.cons.inj h
  have hIndex : i.toNat = k := by
    rw [← hi]
    simp [allBytes]
  rw [indicesAfter, hIndex, hRest]

theorem drop_succ_allBytes {i : UInt8} {rest : List UInt8} (h : allBytes.drop k = i :: rest) :
    allBytes.drop (k + 1) = rest := by
  rw [← List.drop_drop, List.drop_one, h, List.tail_cons]

variable {visits : List Visit}

theorem Walk.next (settings : ExportDataSettings) (hLeaf : settings.flagLeafValues = true) {pre : Bytes} {node : Node}
    (h : Walk store pre node (allBytes.drop k) visits) :
    (nextItem settings node (allBytes.drop k) = none ∧ visits = []) ∨
    (∃ i p value later, nextItem settings node (allBytes.drop k) = some (i, .leaf p value) ∧
      visits = .leaf value :: later ∧ Walk store pre node (indicesAfter (some i)) later) ∨
    ∃ i p ptr child inner later, nextItem settings node (allBytes.drop k) = some (i, .nodePtr p ptr) ∧
      Holds store ptr child ∧ visits = .node (pre ++ i :: p) ptr :: (inner ++ later) ∧
      Walk store (pre ++ i :: p) child allBytes inner ∧ Walk store pre node (indicesAfter (some i)) later := by
  generalize hIndices : allBytes.drop k = indices at h
  induction h generalizing k with
  | done => exact .inl ⟨rfl, rfl⟩
  | @empty pre node i rest visits hItem hRest ih =>
    rw [nextItem, hItem]
    exact ih (drop_succ_allBytes hIndices)
  | @leaf pre node i rest visits p value hItem hRest =>
    rw [drop_allBytes hIndices] at hRest
    refine .inr (.inl ⟨i, p, value, visits, ?_, rfl, hRest⟩)
    rw [nextItem, hItem]
    simp [hLeaf]
  | @sub pre node child i rest inner visits p ptr hItem hChild hInner hRest =>
    rw [drop_allBytes hIndices] at hRest
    refine .inr (.inr ⟨i, p, ptr, child, inner, visits, ?_, hChild, rfl, hInner, hRest⟩)
    rw [nextItem, hItem]

theorem exists_drop_indicesAfter (last : Option UInt8) : ∃ k, indicesAfter last = allBytes.drop k := by
  cases last with
  | none => exact ⟨0, rfl⟩
  | some i => exact ⟨i.toNat + 1, rfl⟩

theorem Pending.next (settings : ExportDataSettings) (hLeaf : settings.flagLeafValues = true) {top : NodeData}
    {rest : List NodeData} (h : Pending store (top :: rest) visits) :
    (findNextNonEmptyItem settings top.decoded top.lastItemIndex = none ∧ Pending store rest visits) ∨
    (∃ i p value later, findNextNonEmptyItem settings top.decoded top.lastItemIndex = some (i, .leaf p value) ∧
      visits = .leaf value :: later ∧ Pending store ({ top with lastItemIndex := some i } :: rest) later) ∨
    ∃ i p ptr child later, findNextNonEmptyItem settings top.decoded top.lastItemIndex = some (i, .nodePtr p ptr) ∧
      Holds store ptr child ∧ visits = .node (top.pre ++ i :: p) ptr :: later ∧
      Pending store (⟨top.pre ++ i :: p, child, none⟩ :: { top with lastItemIndex := some i } :: rest) later := by
  cases h with
  | @cons _ _ visits later hTop hRest =>
    obtain ⟨k, hk⟩ := exists_drop_indicesAfter top.lastItemIndex
    rw [findNextNonEmptyItem, hk]
    rw [hk] at hTop
    obtain ⟨hNone, rfl⟩ | ⟨i, p, value, own, hItem, rfl, hOwn⟩ | ⟨i, p, ptr, child, inner, own, hItem, hChild, rfl,
      hInner, hOwn⟩ := hTop.next settings hLeaf
    · exact .inl ⟨hNone, hRest⟩
    · exact .inr (.inl ⟨i, p, value, own ++ later, hItem, rfl, .cons hOwn hRest⟩)
    · refine .inr (.inr ⟨i, p, ptr, child, inner ++ (own ++ later), hItem, hChild, ?_, ?_⟩)
      · rw [List.cons_append, List.append_assoc]
      · exact .cons hInner (.cons hOwn hRest)

/-- The visits up to the node that uses up the count, with its prefix and what comes after it. -/
def cut : Nat → List Visit → List Visit × Option (Bytes × List Visit)
  | _, [] => ([], none)
  | count, .leaf value :: rest => (.leaf value :: (cut count rest).1, (cut count rest).2)
  | count, .node pre hash :: rest =>
    if count ≤ 1 then ([.node pre hash], some (pre, rest))
    else (.node pre hash :: (cut (count - 1) rest).1, (cut (count - 1) rest).2)

def visitedNodes (visits : List Visit) : List Bytes :=
  visits.filterMap fun
    | .node _ hash => some hash
    | .leaf _ => none

def visitedLeaves (visits : List Visit) : List Bytes :=
  visits.filterMap fun
    | .leaf value => some value
    | .node _ _ => none

/-- The settings of `traverse` without the prefixes of the leaves. -/
abbrev pageSettings : ExportDataSettings := traverseSettings false

/-- The data hold the keys and values of the visits in addition to what was there. -/
structure Adds (data data' : ExportData) (visits : List Visit) : Prop where
  nodeKeys : data'.nodeKeys = data.nodeKeys ++ visitedNodes visits
  leafValues : data'.leafValues = data.leafValues ++ visitedLeaves visits

theorem Adds.nil (data : ExportData) : Adds data data [] :=
  ⟨(List.append_nil _).symm, (List.append_nil _).symm⟩

theorem Adds.trans {data data' data'' : ExportData} {visits' : List Visit} (h : Adds data data' visits)
    (h' : Adds data' data'' visits') : Adds data data'' (visits ++ visits') where
  nodeKeys := by rw [h'.nodeKeys, h.nodeKeys, visitedNodes, visitedNodes, visitedNodes, List.filterMap_append,
    List.append_assoc]
  leafValues := by rw [h'.leafValues, h.leafValues, visitedLeaves, visitedLeaves, visitedLeaves,
    List.filterMap_append, List.append_assoc]

section

variable {settings : ExportDataSettings} {top : NodeData} (rest : List NodeData) {count : Nat} (data : ExportData)

theorem exportStep_ended : exportStep store settings ⟨top :: rest, 0, 0, data⟩ = .ok (.inr (data, some top.pre)) :=
  rfl

theorem exportStep_searches (hCount : 0 < count) : exportStep store settings ⟨top :: rest, 0, count, data⟩ =
    match findNextNonEmptyItem settings top.decoded top.lastItemIndex with
    | some (itemIndex, item) => do
      return .inl (← addElement store settings ⟨top :: rest, 0, count, data⟩ itemIndex item top rest)
    | none => .ok (.inl ⟨rest, 0, count, data⟩) := by
  have hNotEnded : ¬ ((0 : Int) = 0 ∧ (count : Int) = 0) := by omega
  rw [exportStep]
  exact if_neg hNotEnded

theorem exportStep_leaf (hCount : 0 < count) {i : UInt8} {p value : Bytes}
    (hItem : findNextNonEmptyItem pageSettings top.decoded top.lastItemIndex = some (i, .leaf p value)) :
    ∃ data', exportStep store pageSettings ⟨top :: rest, 0, count, data⟩ =
        .ok (.inl ⟨{ top with lastItemIndex := some i } :: rest, 0, count, data'⟩) ∧
      Adds data data' [.leaf value] := by
  refine ⟨{ data with leafPrefixes := [], leafValues := data.leafValues ++ [value] }, ?_, ?_⟩
  · rw [exportStep_searches rest data hCount, hItem]
    rfl
  · exact ⟨(List.append_nil _).symm, rfl⟩

theorem exportStep_node (hCount : 0 < count) {i : UInt8} {p ptr : Bytes} {child : Node}
    (hItem : findNextNonEmptyItem pageSettings top.decoded top.lastItemIndex = some (i, .nodePtr p ptr))
    (hChild : Holds store ptr child) :
    ∃ data', exportStep store pageSettings ⟨top :: rest, 0, count, data⟩ =
        .ok (.inl ⟨⟨top.pre ++ i :: p, child, none⟩ :: { top with lastItemIndex := some i } :: rest, 0,
          (count - 1 : Nat), data'⟩) ∧
      Adds data data' [.node (top.pre ++ i :: p) ptr] := by
  obtain ⟨bytes, hStore, hDecode⟩ := hChild
  have hCast : ((count - 1 : Nat) : Int) = (count : Int) - 1 := by omega
  refine ⟨{ data with nodePrefixes := [], nodeKeys := data.nodeKeys ++ [ptr], nodeValues := [] }, ?_, ?_⟩
  · rw [exportStep_searches rest data hCount, hItem, hCast]
    simp only [addElement, addNodePtr, hStore, hDecode]
    rfl
  · exact ⟨rfl, (List.append_nil _).symm⟩

end

theorem exportStep_page {path : List NodeData} (hPending : Pending store path visits)
    {count : Nat} (hCount : 0 < count) (data : ExportData) :
    ∃ data', RoundsReach (fun p => .ofExcept (exportStep store pageSettings p)) ⟨path, 0, count, data⟩
        (.ok (data', (cut count visits).2.map Prod.fst)) ∧ Adds data data' (cut count visits).1 := by
  -- every round takes a visit or leaves a node of the path
  generalize hMeasure : 2 * visits.length + path.length = measure
  induction measure using Nat.strong_induction_on generalizing path visits count data with
  | _ measure ih =>
    cases path with
    | nil =>
      cases hPending
      exact ⟨data, .done (.ofExcept _), .nil data⟩
    | cons top rest =>
      obtain ⟨hNone, hRest⟩ | ⟨i, p, value, later, hItem, rfl, hLater⟩ | ⟨i, p, ptr, child, later, hItem, hChild, rfl,
        hLater⟩ := hPending.next pageSettings rfl
      · obtain ⟨data', hReach, hAdds⟩ := ih (2 * visits.length + rest.length)
          (by rw [← hMeasure, List.length_cons]; omega) hRest hCount data rfl
        have hStep : exportStep store pageSettings ⟨top :: rest, 0, count, data⟩ = .ok (.inl ⟨rest, 0, count, data⟩) := by
          rw [exportStep_searches rest data hCount, hNone]
        exact ⟨data', .next (.of_eq hStep) hReach, hAdds⟩
      · obtain ⟨data₁, hStep, hAdds₁⟩ := exportStep_leaf rest data hCount hItem
        obtain ⟨data', hReach, hAdds⟩ := ih _ (by rw [← hMeasure]; simp only [List.length_cons]; omega) hLater hCount data₁ rfl
        exact ⟨data', .next (.of_eq hStep) hReach, hAdds₁.trans hAdds⟩
      · obtain ⟨data₁, hStep, hAdds₁⟩ := exportStep_node rest data hCount hItem hChild
        obtain hOne | hMore : count = 1 ∨ 1 < count := by omega
        · subst hOne
          exact ⟨data₁, .next (.of_eq hStep) (.done (.of_eq (exportStep_ended _ data₁))), hAdds₁⟩
        · obtain ⟨data', hReach, hAdds⟩ := ih _ (by rw [← hMeasure]; simp only [List.length_cons]; omega) hLater
            (by omega : 0 < count - 1) data₁ rfl
          rw [cut, if_neg (by omega)]
          exact ⟨data', .next (.of_eq hStep) hReach, hAdds₁.trans hAdds⟩

theorem commonPrefix_append (p q : Bytes) : commonPrefix (p ++ q) p = (p, q, []) := by
  induction p with
  | nil => cases q <;> rfl
  | cons b p ih => rw [List.cons_append, commonPrefix, if_pos rfl, ih]

theorem Walk.exists_index {pre : Bytes} {node : Node} {indices : List UInt8}
    (h : Walk store pre node indices visits) {q hash : Bytes} (hMem : .node q hash ∈ visits) :
    ∃ i t, q = pre ++ i :: t := by
  induction h with
  | done => cases hMem
  | empty hItem hRest ih => exact ih hMem
  | leaf hItem hRest ih => exact ih ((List.mem_cons.mp hMem).resolve_left nofun)
  | @sub pre node child i rest inner visits p ptr hItem hChild hInner hRest ihInner ih =>
    obtain hHead | hTail := List.mem_cons.mp hMem
    · exact ⟨i, p, (Visit.node.inj hHead).1⟩
    · obtain hIn | hLater := List.mem_append.mp hTail
      · obtain ⟨j, t, rfl⟩ := ihInner hIn
        exact ⟨i, p ++ j :: t, by simp⟩
      · exact ih hLater

theorem Walk.locate {pre : Bytes} {node : Node}
    (h : Walk store pre node (allBytes.drop k) visits) {before after : List Visit} {q hash : Bytes}
    (hSplit : visits = before ++ .node q hash :: after) :
    ∃ i p ptr child inner later, node i = .nodePtr p ptr ∧ Holds store ptr child ∧
      Walk store (pre ++ i :: p) child allBytes inner ∧ Walk store pre node (indicesAfter (some i)) later ∧
      ((q = pre ++ i :: p ∧ after = inner ++ later) ∨
        ∃ before' after', inner = before' ++ .node q hash :: after' ∧ after = after' ++ later) := by
  generalize hIndices : allBytes.drop k = indices at h
  induction h generalizing k before with
  | done => cases before <;> cases hSplit
  | empty hItem hRest ih => exact ih hSplit (drop_succ_allBytes hIndices)
  | leaf hItem hRest ih =>
    cases before with
    | nil => cases hSplit
    | cons first before =>
      exact ih (List.cons.inj hSplit).2 (drop_succ_allBytes hIndices)
  | @sub pre node child i rest inner visits p ptr hItem hChild hInner hRest ihInner ih =>
    have hLater := hRest
    rw [drop_allBytes hIndices] at hLater
    cases before with
    | nil =>
      obtain ⟨hNode, rfl⟩ := List.cons.inj hSplit
      obtain ⟨rfl, -⟩ := Visit.node.inj hNode
      exact ⟨i, p, ptr, child, inner, visits, hItem, hChild, hInner, hLater, .inl ⟨rfl, rfl⟩⟩
    | cons first before =>
      obtain ⟨extra, rfl, hRight⟩ | ⟨extra, rfl, hRight⟩ := List.append_eq_append_iff.mp (List.cons.inj hSplit).2
      · exact ih hRight (drop_succ_allBytes hIndices)
      · cases extra with
        | nil =>
          have hHere : visits = [] ++ .node q hash :: after := hRight.symm
          exact ih hHere (drop_succ_allBytes hIndices)
        | cons visit extra =>
          obtain ⟨rfl, rfl⟩ := List.cons.inj hRight
          exact ⟨i, p, ptr, child, _, visits, hItem, hChild, hInner, hLater, .inr ⟨before, extra, rfl, rfl⟩⟩

section

variable {node : Node} {hash pre : Bytes}

theorem initNodePath_end (hNode : Holds store hash node) (path : List NodeData) :
    initNodePath store ⟨hash, pre, [], path⟩ = .ok (.inr (⟨pre, node, none⟩ :: path)) := by
  obtain ⟨bytes, hStore, hDecode⟩ := hNode
  rw [initNodePath, hStore]
  simp only [hDecode]
  rfl

theorem initNodePath_descend (hNode : Holds store hash node) (pre : Bytes) (path : List NodeData) {i : UInt8}
    {p ptr : Bytes} (hItem : node i = .nodePtr p ptr) (q : Bytes) :
    initNodePath store ⟨hash, pre, i :: (p ++ q), path⟩ =
      .ok (.inl ⟨ptr, pre ++ i :: p, q, ⟨pre, node, some i⟩ :: path⟩) := by
  obtain ⟨bytes, hStore, hDecode⟩ := hNode
  have hItem' : processChildItem ⟨hash, pre, i :: (p ++ q), path⟩ node i (p ++ q) =
      .ok ⟨ptr, pre ++ i :: p, q, ⟨pre, node, some i⟩ :: path⟩ := by
    rw [processChildItem, hItem]
    simp only [commonPrefix_append]
    rfl
  rw [initNodePath, hStore]
  simp only [hDecode]
  change (do return .inl (← processChildItem ⟨hash, pre, i :: (p ++ q), path⟩ node i (p ++ q)) :
    Except ExportError (NodePathData ⊕ List NodeData)) = _
  rw [hItem']
  rfl

theorem initNodePath_reaches {rest : Bytes} {path : List NodeData} {visits before after later : List Visit}
    {target : Bytes} (hNode : Holds store hash node) (hWalk : Walk store pre node allBytes visits)
    (hSplit : visits = before ++ .node (pre ++ rest) target :: after) (hPath : Pending store path later) :
    ∃ path', RoundsReach (fun p => .ofExcept (initNodePath store p)) ⟨hash, pre, rest, path⟩ (.ok path') ∧
      Pending store path' (after ++ later) := by
  generalize hLength : rest.length = length
  induction length using Nat.strong_induction_on generalizing hash node pre rest path visits before after later with
  | _ length ih =>
    obtain ⟨i, p, ptr, child, inner, own, hItem, hChild, hInner, hOwn, hCase⟩ := Walk.locate (k := 0) hWalk hSplit
    have hAbove : Pending store (⟨pre, node, some i⟩ :: path) (own ++ later) := .cons hOwn hPath
    obtain ⟨hHere, rfl⟩ | ⟨before', after', hInside, rfl⟩ := hCase
    · -- the item points to the node itself
      obtain rfl := List.append_cancel_left hHere
      have hStep := initNodePath_descend hNode pre path hItem []
      rw [List.append_nil] at hStep
      refine ⟨_, .next (.of_eq hStep) (.done (.of_eq (initNodePath_end hChild _))), ?_⟩
      rw [List.append_assoc]
      exact .cons hInner hAbove
    · -- the node lies deeper, and its prefix goes on behind that of the item
      have hMem : .node (pre ++ rest) target ∈ inner := by simp [hInside]
      obtain ⟨j, t, hPrefix⟩ := hInner.exists_index hMem
      rw [List.append_assoc] at hPrefix
      obtain rfl : rest = i :: (p ++ j :: t) := List.append_cancel_left hPrefix
      have hStep := initNodePath_descend hNode pre path hItem (j :: t)
      have hInside' : inner = before' ++ .node ((pre ++ i :: p) ++ j :: t) target :: after' := by
        rw [hInside]
        simp
      obtain ⟨path', hReach, hPending⟩ := ih (j :: t).length (by rw [← hLength]; simp only [List.length_cons, List.length_append]; omega) hChild hInner hInside'
        hAbove rfl
      refine ⟨path', .next (.of_eq hStep) hReach, ?_⟩
      rw [List.append_assoc]
      exact hPending

end

end F1r3Node.StateSync
