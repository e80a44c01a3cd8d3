import F1r3Node.StateSync.StateCompleteness

/-! # Pages of an export and the export as a whole

The stack of the exporter at the end of a page is the one that `init_node_path` builds from the prefix (`Trail`), so
the next page goes on where the last one stopped.
-/

namespace F1r3Node.StateSync

open Shared
open History
open Lib

/-- What is handed out for a node, with its serialised form, and for a leaf. -/
inductive Element where
  | node (pre key value : Bytes)
  | leaf (pre value : Bytes)

def exportsLeaves (settings : ExportDataSettings) : Bool := settings.flagLeafPrefixes || settings.flagLeafValues

/-- The elements below a node with the given prefix, over the items at the given indices. -/
inductive Tour (store : Bytes → Option Bytes) (settings : ExportDataSettings) :
    Bytes → Node → List UInt8 → List Element → Prop
  | done {pre : Bytes} {node : Node} : Tour store settings pre node [] []
  | empty {pre : Bytes} {node : Node} {i : UInt8} {rest : List UInt8} {elements : List Element}
      (hItem : node i = .emptyItem) (hRest : Tour store settings pre node rest elements) :
      Tour store settings pre node (i :: rest) elements
  | skipped {pre : Bytes} {node : Node} {i : UInt8} {rest : List UInt8} {elements : List Element} {p value : Bytes}
      (hItem : node i = .leaf p value) (hOff : exportsLeaves settings = false)
      (hRest : Tour store settings pre node rest elements) : Tour store settings pre node (i :: rest) elements
  | leaf {pre : Bytes} {node : Node} {i : UInt8} {rest : List UInt8} {elements : List Element} {p value : Bytes}
      (hItem : node i = .leaf p value) (hOn : exportsLeaves settings = true)
      (hRest : Tour store settings pre node rest elements) :
      Tour store settings pre node (i :: rest) (.leaf (pre ++ i :: p) value :: elements)
  | sub {pre : Bytes} {node child : Node} {i : UInt8} {rest : List UInt8} {inner elements : List Element}
      {p ptr bytes : Bytes} (hItem : node i = .nodePtr p ptr) (hStore : store ptr = some bytes)
      (hDecode : decodeNode bytes = .ok child) (hInner : Tour store settings (pre ++ i :: p) child allBytes inner)
      (hRest : Tour store settings pre node rest elements) :
      Tour store settings pre node (i :: rest) (.node (pre ++ i :: p) ptr bytes :: (inner ++ elements))

inductive Emits (store : Bytes → Option Bytes) (settings : ExportDataSettings) : List NodeData → List Element → Prop
  | nil : Emits store settings [] []
  | cons {top : NodeData} {rest : List NodeData} {elements later : List Element}
      (hTop : Tour store settings top.pre top.decoded (indicesAfter top.lastItemIndex) elements)
      (hRest : Emits store settings rest later) : Emits store settings (top :: rest) (elements ++ later)

def nodesOf (elements : List Element) : List (Bytes × Bytes × Bytes) :=
  elements.filterMap fun
    | .node pre key value => some (pre, key, value)
    | .leaf _ _ => none

def leavesOf (elements : List Element) : List (Bytes × Bytes) :=
  elements.filterMap fun
    | .leaf pre value => some (pre, value)
    | .node _ _ _ => none

@[simp] theorem nodesOf_append (elements later : List Element) :
    nodesOf (elements ++ later) = nodesOf elements ++ nodesOf later := List.filterMap_append

@[simp] theorem leavesOf_append (elements later : List Element) :
    leavesOf (elements ++ later) = leavesOf elements ++ leavesOf later := List.filterMap_append

@[simp] theorem nodesOf_node (pre key value : Bytes) (rest : List Element) :
    nodesOf (.node pre key value :: rest) = (pre, key, value) :: nodesOf rest := rfl

@[simp] theorem nodesOf_leaf (pre value : Bytes) (rest : List Element) :
    nodesOf (.leaf pre value :: rest) = nodesOf rest := rfl

@[simp] theorem nodesOf_nil : nodesOf [] = [] := rfl

variable {store : Bytes → Option Bytes} {settings : ExportDataSettings} {root : Bytes}

variable {node : Node}

theorem Walk.exists_tour (settings : ExportDataSettings) {pre : Bytes} {indices : List UInt8}
    {visits : List Visit} (h : Walk store pre node indices visits) :
    ∃ elements, Tour store settings pre node indices elements := by
  induction h with
  | done => exact ⟨[], .done⟩
  | empty hItem hRest ih =>
    obtain ⟨elements, hTour⟩ := ih
    exact ⟨elements, .empty hItem hTour⟩
  | leaf hItem hRest ih =>
    obtain ⟨elements, hTour⟩ := ih
    cases hLeaves : exportsLeaves settings with
    | false => exact ⟨elements, .skipped hItem hLeaves hTour⟩
    | true => exact ⟨_, .leaf hItem hLeaves hTour⟩
  | sub hItem hChild hInner hRest ihInner ih =>
    obtain ⟨bytes, hStore, hDecode⟩ := hChild
    obtain ⟨inner, hInside⟩ := ihInner
    obtain ⟨elements, hTour⟩ := ih
    exact ⟨_, .sub hItem hStore hDecode hInside hTour⟩

variable {elements : List Element}

theorem Tour.nodesOf_ne_nil_iff {pre : Bytes} {indices : List UInt8}
    (h : Tour store settings pre node indices elements) :
    nodesOf elements ≠ [] ↔ ∃ i ∈ indices, ∃ p ptr, node i = .nodePtr p ptr := by
  induction h with
  | done => simp
  | empty hItem hRest ih => simp [ih, hItem]
  | skipped hItem hOff hRest ih => simp [ih, hItem]
  | leaf hItem hOn hRest ih => simp [ih, hItem]
  | sub hItem hStore hDecode hInner hRest ihInner ih => simp [hItem]

theorem Tour.next {pre : Bytes} {k : Nat}
    (h : Tour store settings pre node (allBytes.drop k) elements) :
    (nextItem settings node (allBytes.drop k) = none ∧ elements = []) ∨
    (∃ i p value later, nextItem settings node (allBytes.drop k) = some (i, .leaf p value) ∧
      elements = .leaf (pre ++ i :: p) value :: later ∧ Tour store settings pre node (indicesAfter (some i)) later) ∨
    ∃ i p ptr bytes child inner later, nextItem settings node (allBytes.drop k) = some (i, .nodePtr p ptr) ∧
      node i = .nodePtr p ptr ∧ store ptr = some bytes ∧ decodeNode bytes = .ok child ∧
      elements = .node (pre ++ i :: p) ptr bytes :: (inner ++ later) ∧
      Tour store settings (pre ++ i :: p) child allBytes inner ∧
      Tour store settings pre node (indicesAfter (some i)) later := by
  generalize hIndices : allBytes.drop k = indices at h
  induction h generalizing k with
  | done => exact .inl ⟨rfl, rfl⟩
  | empty hItem hRest ih =>
    rw [nextItem, hItem]
    exact ih (drop_succ_allBytes hIndices)
  | skipped hItem hOff hRest ih =>
    rw [nextItem, hItem]
    rw [exportsLeaves] at hOff
    simp only [hOff, Bool.false_eq_true, if_false]
    exact ih (drop_succ_allBytes hIndices)
  | @leaf pre node i rest elements p value hItem hOn hRest =>
    rw [drop_allBytes hIndices] at hRest
    refine .inr (.inl ⟨i, p, value, elements, ?_, rfl, hRest⟩)
    rw [nextItem, hItem]
    exact if_pos hOn
  | @sub pre node child i rest inner elements p ptr bytes hItem hStore hDecode hInner hRest =>
    rw [drop_allBytes hIndices] at hRest
    refine .inr (.inr ⟨i, p, ptr, bytes, child, inner, elements, ?_, hItem, hStore, hDecode, rfl, hInner, hRest⟩)
    rw [nextItem, hItem]

theorem Emits.next {top : NodeData} {rest : List NodeData}
    (h : Emits store settings (top :: rest) elements) :
    (findNextNonEmptyItem settings top.decoded top.lastItemIndex = none ∧ Emits store settings rest elements) ∨
    (∃ i p value later, findNextNonEmptyItem settings top.decoded top.lastItemIndex = some (i, .leaf p value) ∧
      elements = .leaf (top.pre ++ i :: p) value :: later ∧
      Emits store settings ({ top with lastItemIndex := some i } :: rest) later) ∨
    ∃ i p ptr bytes child later,
      findNextNonEmptyItem settings top.decoded top.lastItemIndex = some (i, .nodePtr p ptr) ∧
      top.decoded i = .nodePtr p ptr ∧ store ptr = some bytes ∧ decodeNode bytes = .ok child ∧
      elements = .node (top.pre ++ i :: p) ptr bytes :: later ∧
      Emits store settings (⟨top.pre ++ i :: p, child, none⟩ :: { top with lastItemIndex := some i } :: rest) later := by
  cases h with
  | @cons _ _ elements later hTop hRest =>
    obtain ⟨k, hk⟩ := exists_drop_indicesAfter top.lastItemIndex
    rw [findNextNonEmptyItem, hk]
    rw [hk] at hTop
    obtain ⟨hNone, rfl⟩ | ⟨i, p, value, own, hItem, rfl, hOwn⟩ | ⟨i, p, ptr, bytes, child, inner, own, hNext, hItem,
      hStore, hDecode, rfl, hInner, hOwn⟩ := hTop.next
    · exact .inl ⟨hNone, hRest⟩
    · exact .inr (.inl ⟨i, p, value, own ++ later, hItem, rfl, .cons hOwn hRest⟩)
    · refine .inr (.inr ⟨i, p, ptr, bytes, child, inner ++ (own ++ later), hNext, hItem, hStore, hDecode, ?_, ?_⟩)
      · rw [List.cons_append, List.append_assoc]
      · exact .cons hInner (.cons hOwn hRest)

/-- The nodes from the root to the one on top, each with the index of the next. -/
inductive Trail (store : Bytes → Option Bytes) (root : Bytes) : List NodeData → Prop
  | nil : Trail store root []
  | root {node : Node} (hRoot : Holds store root node) (last : Option UInt8) : Trail store root [⟨[], node, last⟩]
  | child {pre p ptr : Bytes} {node child : Node} {i : UInt8} {rest : List NodeData}
      (hParent : Trail store root (⟨pre, node, some i⟩ :: rest)) (hItem : node i = .nodePtr p ptr)
      (hChild : Holds store ptr child) (last : Option UInt8) :
      Trail store root (⟨pre ++ i :: p, child, last⟩ :: ⟨pre, node, some i⟩ :: rest)

theorem Trail.tail {top : NodeData} {rest : List NodeData} (h : Trail store root (top :: rest)) :
    Trail store root rest := by
  cases h with
  | root => exact .nil
  | child hParent => exact hParent

theorem Trail.moved {top : NodeData} {rest : List NodeData} (h : Trail store root (top :: rest))
    (last : Option UInt8) : Trail store root ({ top with lastItemIndex := last } :: rest) := by
  cases h with
  | root hRoot => exact .root hRoot last
  | child hParent hItem hChild => exact .child hParent hItem hChild last

theorem Trail.passes {top : NodeData} {rest : List NodeData} (h : Trail store root (top :: rest)) :
    ∃ hash, Holds store hash top.decoded ∧ ∀ q r,
      RoundsReach (fun p => .ofExcept (initNodePath store p)) ⟨hash, top.pre, q, rest⟩ r →
      RoundsReach (fun p => .ofExcept (initNodePath store p)) ⟨root, [], top.pre ++ q, []⟩ r := by
  generalize hPath : top :: rest = path at h
  induction h generalizing top rest with
  | nil => cases hPath
  | root hRoot last =>
    cases hPath
    exact ⟨root, hRoot, fun q r h => h⟩
  | @child pre p ptr node child i rest' hParent hItem hChild last ih =>
    cases hPath
    obtain ⟨hash, hNode, hPasses⟩ := ih rfl
    refine ⟨ptr, hChild, fun q r h => ?_⟩
    rw [List.append_assoc, List.cons_append]
    exact hPasses _ r (.next (.of_eq (initNodePath_descend hNode pre rest' hItem q)) h)

theorem Trail.resumes {pre : Bytes} {rest : List NodeData}
    (h : Trail store root (⟨pre, node, none⟩ :: rest)) :
    RoundsReach (fun p => .ofExcept (initNodePath store p)) ⟨root, [], pre, []⟩
      (.ok (⟨pre, node, none⟩ :: rest)) := by
  obtain ⟨hash, hNode, hPasses⟩ := h.passes
  have hEnd := hPasses [] (.ok (⟨pre, node, none⟩ :: rest)) (.done (.of_eq (initNodePath_end hNode rest)))
  rwa [List.append_nil] at hEnd

def addTo (settings : ExportDataSettings) (data : ExportData) : Element → ExportData
  | .node pre key value => { data with
      nodePrefixes := pushIf settings.flagNodePrefixes data.nodePrefixes pre
      nodeKeys := pushIf settings.flagNodeKeys data.nodeKeys key
      nodeValues := pushIf settings.flagNodeValues data.nodeValues value }
  | .leaf pre value => { data with
      leafPrefixes := pushIf settings.flagLeafPrefixes data.leafPrefixes pre
      leafValues := pushIf settings.flagLeafValues data.leafValues value }

section step

variable {top : NodeData} (rest : List NodeData) {count : Nat} (data : ExportData)

theorem exportStep_addsLeaf (hCount : 0 < count) {i : UInt8} {p value : Bytes}
    (hItem : findNextNonEmptyItem settings top.decoded top.lastItemIndex = some (i, .leaf p value)) :
    exportStep store settings ⟨top :: rest, 0, count, data⟩ =
      .ok (.inl ⟨{ top with lastItemIndex := some i } :: rest, 0, count,
        addTo settings data (.leaf (top.pre ++ i :: p) value)⟩) := by
  rw [exportStep_searches rest data hCount, hItem]
  rfl

theorem exportStep_addsNode (hCount : 0 < count) {i : UInt8} {p ptr bytes : Bytes} {child : Node}
    (hItem : findNextNonEmptyItem settings top.decoded top.lastItemIndex = some (i, .nodePtr p ptr))
    (hStore : store ptr = some bytes) (hDecode : decodeNode bytes = .ok child) :
    exportStep store settings ⟨top :: rest, 0, count, data⟩ =
      .ok (.inl ⟨⟨top.pre ++ i :: p, child, none⟩ :: { top with lastItemIndex := some i } :: rest, 0,
        (count - 1 : Nat), addTo settings data (.node (top.pre ++ i :: p) ptr bytes)⟩) := by
  have hCast : ((count - 1 : Nat) : Int) = (count : Int) - 1 := by omega
  rw [exportStep_searches rest data hCount, hItem, hCast]
  simp only [addElement, addNodePtr, hStore, hDecode]
  rfl

end step

/-- A stop of the export: the elements before it are taken, and its prefix leads to a stack with the
others before it. -/
structure StopsAt (store : Bytes → Option Bytes) (settings : ExportDataSettings) (root : Bytes) (count : Nat)
    (elements taken later : List Element) (pre : Bytes) : Prop where
  split : elements = taken ++ later
  full : (nodesOf taken).length = count
  resumable : ∃ node rest, Trail store root (⟨pre, node, none⟩ :: rest) ∧
    Emits store settings (⟨pre, node, none⟩ :: rest) later

theorem StopsAt.cons {count : Nat} {taken later : List Element} {pre : Bytes}
    (h : StopsAt store settings root count elements taken later pre) (element : Element) {count' : Nat}
    (hCount : (nodesOf [element]).length + count = count') :
    StopsAt store settings root count' (element :: elements) (element :: taken) later pre where
  split := by rw [h.split, List.cons_append]
  full := by
    rw [← hCount, ← h.full, ← List.length_append, ← nodesOf_append, List.singleton_append]
  resumable := h.resumable

theorem exportStep_segment {path : List NodeData} (hEmits : Emits store settings path elements)
    (hTrail : Trail store root path) {count : Nat} (hCount : 0 < count) (data : ExportData) :
    ((nodesOf elements).length < count ∧
      RoundsReach (fun p => .ofExcept (exportStep store settings p)) ⟨path, 0, count, data⟩
        (.ok (elements.foldl (addTo settings) data, none))) ∨
    ∃ taken later pre, StopsAt store settings root count elements taken later pre ∧
      RoundsReach (fun p => .ofExcept (exportStep store settings p)) ⟨path, 0, count, data⟩
        (.ok (taken.foldl (addTo settings) data, some pre)) := by
  -- every round takes an element or leaves a node of the stack
  generalize hMeasure : 2 * elements.length + path.length = measure
  induction measure using Nat.strong_induction_on generalizing path elements count data with
  | _ measure ih =>
    cases path with
    | nil =>
      cases hEmits
      exact .inl ⟨hCount, .done (.ofExcept _)⟩
    | cons top rest =>
      obtain ⟨hNone, hRest⟩ | ⟨i, p, value, later, hNext, rfl, hLater⟩ | ⟨i, p, ptr, bytes, child, later, hNext, hItem,
        hStore, hDecode, rfl, hLater⟩ := hEmits.next
      · have hStep : exportStep store settings ⟨top :: rest, 0, count, data⟩ = .ok (.inl ⟨rest, 0, count, data⟩) := by
          rw [exportStep_searches rest data hCount, hNone]
        obtain ⟨hFew, hReach⟩ | ⟨taken, later, pre, hStops, hReach⟩ := ih (2 * elements.length + rest.length)
          (by rw [← hMeasure, List.length_cons]; omega) hRest hTrail.tail hCount data rfl
        · exact .inl ⟨hFew, .next (.of_eq hStep) hReach⟩
        · exact .inr ⟨taken, later, pre, hStops, .next (.of_eq hStep) hReach⟩
      · have hStep := @exportStep_addsLeaf store settings top rest count data hCount i p value hNext
        obtain ⟨hFew, hReach⟩ | ⟨taken, after, pre, hStops, hReach⟩ := ih _
          (by rw [← hMeasure]; simp only [List.length_cons]; omega) hLater (hTrail.moved (some i)) hCount
          (addTo settings data (.leaf (top.pre ++ i :: p) value)) rfl
        · exact .inl ⟨hFew, .next (.of_eq hStep) hReach⟩
        · exact .inr ⟨_, after, pre, hStops.cons _ (Nat.zero_add count), .next (.of_eq hStep) hReach⟩
      · have hStep := exportStep_addsNode rest data hCount hNext hStore hDecode
        have hDeeper : Trail store root (⟨top.pre ++ i :: p, child, none⟩ :: { top with lastItemIndex := some i } :: rest) :=
          .child (hTrail.moved (some i)) hItem ⟨bytes, hStore, hDecode⟩ none
        obtain rfl | hMore : count = 1 ∨ 1 < count := by omega
        · refine .inr ⟨[.node (top.pre ++ i :: p) ptr bytes], later, _, ⟨rfl, rfl, _, _, hDeeper, hLater⟩, ?_⟩
          exact .next (.of_eq hStep) (.done (.of_eq (exportStep_ended _ _)))
        · obtain ⟨hFew, hReach⟩ | ⟨taken, after, pre, hStops, hReach⟩ := ih _
            (by rw [← hMeasure]; simp only [List.length_cons]; omega) hLater hDeeper (by omega : 0 < count - 1)
            (addTo settings data (.node (top.pre ++ i :: p) ptr bytes)) rfl
          · refine .inl ⟨?_, .next (.of_eq hStep) hReach⟩
            rw [nodesOf_node, List.length_cons]
            omega
          · refine .inr ⟨_, after, pre, hStops.cons _ ?_, .next (.of_eq hStep) hReach⟩
            rw [nodesOf_node, nodesOf_nil, List.length_singleton]
            omega

variable {bytes : Bytes}

theorem sequentialExport_first {below : List Element} (hStore : store root = some bytes)
    (hDecode : decodeNode bytes = .ok node) (hTour : Tour store settings [] node allBytes below) {n : Nat} (hn : 0 < n) :
    ((nodesOf below).length + 1 < n ∧ Reaches (sequentialExport store settings root none 0 n)
      (.ok (below.foldl (addTo settings) (rootExportData settings root bytes), none))) ∨
    ∃ taken later pre, StopsAt store settings root (n - 1) below taken later pre ∧
      Reaches (sequentialExport store settings root none 0 n)
        (.ok (taken.foldl (addTo settings) (rootExportData settings root bytes), some pre)) := by
  have hRoot : Holds store root node := ⟨bytes, hStore, hDecode⟩
  have hTrail : Trail store root [⟨[], node, none⟩] := .root hRoot none
  have hEmits : Emits store settings [⟨[], node, none⟩] (below ++ []) := .cons hTour .nil
  rw [List.append_nil] at hEmits
  have hExport : ∀ {result}, RoundsReach (fun p => .ofExcept (exportStep store settings p))
      ⟨[⟨[], node, none⟩], 0, (n - 1 : Nat), rootExportData settings root bytes⟩ result →
      Reaches (sequentialExport store settings root none 0 n) result := by
    intro result hReach
    have hCast : ((n - 1 : Nat) : Int) = (n : Int) - 1 := by omega
    rw [hCast] at hReach
    exact sequentialExport_reaches hStore hn (.done (.of_eq (initNodePath_end hRoot []))) hReach
  obtain rfl | hMore : n = 1 ∨ 1 < n := by omega
  · exact .inr ⟨[], below, [], ⟨rfl, rfl, node, [], hTrail, hEmits⟩, hExport (.done (.of_eq (exportStep_ended [] _)))⟩
  · obtain ⟨hFew, hReach⟩ | ⟨taken, later, pre, hStops, hReach⟩ := exportStep_segment hEmits hTrail
      (by omega : 0 < n - 1) (rootExportData settings root bytes)
    · exact .inl ⟨by omega, hExport hReach⟩
    · exact .inr ⟨taken, later, pre, hStops, hExport hReach⟩

theorem sequentialExport_resumed {pre : Bytes} {rest : List NodeData}
    (hStore : store root = some bytes) (hTrail : Trail store root (⟨pre, node, none⟩ :: rest))
    (hEmits : Emits store settings (⟨pre, node, none⟩ :: rest) elements) {n : Nat} (hn : 0 < n) :
    Reaches (sequentialExport store settings root (some pre) 0 n)
      (.ok (elements.foldl (addTo settings) emptyExportData, none)) ∨
    ∃ taken later stop, StopsAt store settings root n elements taken later stop ∧
      Reaches (sequentialExport store settings root (some pre) 0 n)
        (.ok (taken.foldl (addTo settings) emptyExportData, some stop)) := by
  obtain ⟨-, hReach⟩ | ⟨taken, later, stop, hStops, hReach⟩ := exportStep_segment hEmits hTrail hn emptyExportData
  · exact .inl (sequentialExport_reaches hStore hn hTrail.resumes hReach)
  · exact .inr ⟨taken, later, stop, hStops, sequentialExport_reaches hStore hn hTrail.resumes hReach⟩

/-- `pushIf` for each item of a list. -/
def pushAll (flag : Bool) (items news : List Bytes) : List Bytes := news.foldl (pushIf flag) items

theorem pushAll_on (items news : List Bytes) : pushAll true items news = items ++ news := by
  induction news generalizing items with
  | nil => exact (List.append_nil items).symm
  | cons item news ih =>
    change pushAll true (items ++ [item]) news = _
    rw [ih, List.append_assoc, List.singleton_append]

theorem pushAll_off (items : List Bytes) {news : List Bytes} (h : news ≠ []) : pushAll false items news = [] := by
  obtain ⟨front, last, rfl⟩ : ∃ front last, news = front ++ [last] := ⟨_, _, (List.dropLast_append_getLast h).symm⟩
  rw [pushAll, List.foldl_append]
  rfl

theorem pushAll_append_iff (flag : Bool) (items news later : List Bytes) :
    pushAll flag items news ++ pushAll flag [] later = pushAll flag items (news ++ later) ↔
      flag = true ∨ items = [] ∨ (news = [] → later = []) := by
  cases flag with
  | true => simp [pushAll_on]
  | false =>
    cases news with
    | nil =>
      cases later with
      | nil => simp [pushAll]
      | cons item later =>
        rw [pushAll_off [] (List.cons_ne_nil item later), List.nil_append,
          pushAll_off items (List.cons_ne_nil item later)]
        simp [pushAll]
    | cons item news =>
      have hLater : pushAll false [] later = [] := by
        cases later with
        | nil => rfl
        | cons item later => exact pushAll_off [] (List.cons_ne_nil item later)
      rw [hLater, List.append_nil, pushAll_off items (List.cons_ne_nil item news), List.cons_append,
        pushAll_off items (List.cons_ne_nil item (news ++ later))]
      simp

def ExportData.append (data later : ExportData) : ExportData where
  nodePrefixes := data.nodePrefixes ++ later.nodePrefixes
  nodeKeys := data.nodeKeys ++ later.nodeKeys
  nodeValues := data.nodeValues ++ later.nodeValues
  leafPrefixes := data.leafPrefixes ++ later.leafPrefixes
  leafValues := data.leafValues ++ later.leafValues

theorem ExportData.append_assoc (a b c : ExportData) : (a.append b).append c = a.append (b.append c) := by
  simp only [ExportData.append, List.append_assoc]

theorem ExportData.empty_append (data : ExportData) : emptyExportData.append data = data := rfl

theorem foldl_addTo (settings : ExportDataSettings) (data : ExportData) (elements : List Element) :
    elements.foldl (addTo settings) data = {
      nodePrefixes := pushAll settings.flagNodePrefixes data.nodePrefixes ((nodesOf elements).map fun n => n.1)
      nodeKeys := pushAll settings.flagNodeKeys data.nodeKeys ((nodesOf elements).map fun n => n.2.1)
      nodeValues := pushAll settings.flagNodeValues data.nodeValues ((nodesOf elements).map fun n => n.2.2)
      leafPrefixes := pushAll settings.flagLeafPrefixes data.leafPrefixes ((leavesOf elements).map fun l => l.1)
      leafValues := pushAll settings.flagLeafValues data.leafValues ((leavesOf elements).map fun l => l.2) } := by
  induction elements generalizing data with
  | nil => rfl
  | cons element elements ih =>
    rw [List.foldl_cons, ih]
    cases element <;> rfl

theorem foldl_addTo_append_iff (settings : ExportDataSettings) (data : ExportData) (taken later : List Element)
    (hNodePrefixes : settings.flagNodePrefixes = true ∨ data.nodePrefixes = [])
    (hNodeKeys : settings.flagNodeKeys = true ∨ data.nodeKeys = [])
    (hLeafPrefixes : data.leafPrefixes = []) (hLeafValues : data.leafValues = []) :
    (taken.foldl (addTo settings) data).append (later.foldl (addTo settings) emptyExportData) =
      (taken ++ later).foldl (addTo settings) data ↔
      settings.flagNodeValues = true ∨ data.nodeValues = [] ∨ (nodesOf taken = [] → nodesOf later = []) := by
  rw [foldl_addTo, foldl_addTo, foldl_addTo, ExportData.append, ExportData.mk.injEq, nodesOf_append, leavesOf_append]
  simp only [emptyExportData, List.map_append, pushAll_append_iff, List.map_eq_nil_iff]
  simp only [← or_assoc, hNodePrefixes, hNodeKeys, hLeafPrefixes, hLeafValues, true_or, or_true, true_and, and_true]

structure PagingState where
  lastPrefix : Option Bytes
  page : Nat
  data : ExportData

/-- One page, from where the last one has stopped; the sizes may change from page to page. -/
def exportPage (store : Bytes → Option Bytes) (settings : ExportDataSettings) (root : Bytes) (takes : Nat → Nat)
    (s : PagingState) : Fuelled ExportError (PagingState ⊕ ExportData) := do
  let (data, lastPrefix) ← sequentialExport store settings root s.lastPrefix 0 (takes s.page)
  match lastPrefix with
  | some pre => pure (.inl ⟨some pre, s.page + 1, s.data.append data⟩)
  | none => pure (.inr (s.data.append data))

def exportInPages (store : Bytes → Option Bytes) (settings : ExportDataSettings) (root : Bytes) (takes : Nat → Nat) :
    Fuelled ExportError ExportData :=
  Fuelled.loop (exportPage store settings root takes) ⟨none, 0, emptyExportData⟩

section pages

variable {takes : Nat → Nat} {s : PagingState} {data : ExportData} {pre : Bytes}

theorem exportPage_more
    (h : Reaches (sequentialExport store settings root s.lastPrefix 0 (takes s.page)) (.ok (data, some pre))) :
    Reaches (exportPage store settings root takes s) (.ok (.inl ⟨some pre, s.page + 1, s.data.append data⟩)) :=
  .bind h (.pure _)

theorem exportPage_last
    (h : Reaches (sequentialExport store settings root s.lastPrefix 0 (takes s.page)) (.ok (data, none))) :
    Reaches (exportPage store settings root takes s) (.ok (.inr (s.data.append data))) :=
  .bind h (.pure _)

theorem exportPage_run {bytes : Bytes} (hStore : store root = some bytes) (hTakes : ∀ k, 0 < takes k)
    {node : Node} {rest : List NodeData} {elements : List Element}
    (hTrail : Trail store root (⟨pre, node, none⟩ :: rest))
    (hEmits : Emits store settings (⟨pre, node, none⟩ :: rest) elements) (page : Nat) (data : ExportData) :
    RoundsReach (exportPage store settings root takes) ⟨some pre, page, data⟩
      (.ok (data.append (elements.foldl (addTo settings) emptyExportData))) := by
  generalize hLength : elements.length = length
  induction length using Nat.strong_induction_on generalizing pre node rest elements page data with
  | _ length ih =>
    obtain hReach | ⟨taken, later, stop, hStops, hReach⟩ :=
      sequentialExport_resumed hStore hTrail hEmits (hTakes page)
    · exact .done (exportPage_last hReach)
    · obtain ⟨rfl, hFull, node', rest', hTrail', hEmits'⟩ := hStops
      have hPos := hTakes page
      have hTaken : (nodesOf taken).length ≤ taken.length := List.length_filterMap_le _ _
      have hSplit : (taken.foldl (addTo settings) emptyExportData).append
          (later.foldl (addTo settings) emptyExportData) = (taken ++ later).foldl (addTo settings) emptyExportData := by
        rw [foldl_addTo_append_iff settings emptyExportData taken later (.inr rfl) (.inr rfl) rfl rfl]
        exact .inr (.inl rfl)
      rw [← hSplit, ← ExportData.append_assoc]
      rw [List.length_append] at hLength
      exact .next (exportPage_more hReach) (ih later.length (by omega) hTrail' hEmits' (page + 1) _ rfl)

end pages

/-- One export with any take that is large enough returns everything, the pages end, and their lists put together are
those of the whole. -/
def PagingFaithful (store : Bytes → Option Bytes) (settings : ExportDataSettings) (root : Bytes) (takes : Nat → Nat) :
    Prop :=
  ∃ whole pages, (∃ bound, ∀ take : Nat, bound ≤ take →
      Reaches (sequentialExport store settings root none 0 take) (.ok (whole, none))) ∧
    Reaches (exportInPages store settings root takes) (.ok pages) ∧ pages = whole

def RootHasPointer (store : Bytes → Option Bytes) (root : Bytes) : Prop :=
  ∃ node i p ptr, Holds store root node ∧ node i = .nodePtr p ptr

theorem pagingFaithful_iff_eq {takes : Nat → Nat} {whole pages : ExportData}
    (hWhole : ∃ bound, ∀ take : Nat, bound ≤ take →
      Reaches (sequentialExport store settings root none 0 take) (.ok (whole, none)))
    (hPages : Reaches (exportInPages store settings root takes) (.ok pages)) :
    PagingFaithful store settings root takes ↔ pages = whole := by
  refine ⟨?_, fun h => ⟨whole, pages, hWhole, hPages, h⟩⟩
  rintro ⟨whole', pages', ⟨bound', hWhole'⟩, hPages', rfl⟩
  obtain ⟨bound, hWhole⟩ := hWhole
  have hSameWhole := (hWhole (bound + bound') (by omega)).unique
    ((hWhole' (bound + bound') (by omega)).enough.choose_spec _ le_rfl)
  have hSamePages := hPages.unique (hPages'.enough.choose_spec _ le_rfl)
  exact (Except.ok.inj hSamePages).symm.trans (congrArg Prod.fst (Except.ok.inj hSameWhole))

theorem exportInPages_held {takes : Nat → Nat} (hTakes : ∀ k, 0 < takes k)
    {below : List Element} (hStore : store root = some bytes) (hDecode : decodeNode bytes = .ok node)
    (hTour : Tour store settings [] node allBytes below) :
    PagingFaithful store settings root takes ↔
      ¬ (settings.flagLeafValues = true ∧ settings.flagNodeValues = false ∧ takes 0 = 1 ∧ nodesOf below ≠ []) := by
  have hWhole : ∃ bound, ∀ take : Nat, bound ≤ take → Reaches (sequentialExport store settings root none 0 take)
      (.ok (below.foldl (addTo settings) (rootExportData settings root bytes), none)) := by
    refine ⟨(nodesOf below).length + 2, fun take hTake => ?_⟩
    obtain ⟨-, hReach⟩ | ⟨taken, later, pre, hStops, -⟩ :=
      sequentialExport_first hStore hDecode hTour (by omega : 0 < take)
    · exact hReach
    · have hFull := hStops.full
      have hSplit := congrArg (fun elements => (nodesOf elements).length) hStops.split
      simp only [nodesOf_append, List.length_append] at hSplit
      omega
  obtain ⟨hFew, hReach⟩ | ⟨taken, later, pre, hStops, hReach⟩ := sequentialExport_first hStore hDecode hTour (hTakes 0)
  · -- one page is enough
    have hPages : Reaches (exportInPages store settings root takes) (.ok _) :=
      (RoundsReach.done (exportPage_last (s := ⟨none, 0, emptyExportData⟩) hReach)).loop
    rw [pagingFaithful_iff_eq hWhole hPages, ExportData.empty_append]
    refine iff_of_true rfl ?_
    rintro ⟨-, -, hOne, -⟩
    omega
  · obtain ⟨rfl, hFull, node', rest, hTrail, hEmits⟩ := hStops
    have hPages : Reaches (exportInPages store settings root takes) (.ok _) :=
      (RoundsReach.next (exportPage_more (s := ⟨none, 0, emptyExportData⟩) hReach)
        (exportPage_run hStore hTakes hTrail hEmits 1 _)).loop
    have hRootPrefixes : settings.flagNodePrefixes = true ∨
        (rootExportData settings root bytes).nodePrefixes = [] := by
      cases h : settings.flagNodePrefixes <;> simp [rootExportData, h]
    have hRootKeys : settings.flagNodeKeys = true ∨ (rootExportData settings root bytes).nodeKeys = [] := by
      cases h : settings.flagNodeKeys <;> simp [rootExportData, h]
    have hRootValues : (rootExportData settings root bytes).nodeValues = [] ↔ settings.flagLeafValues = false := by
      cases h : settings.flagLeafValues <;> simp [rootExportData, h]
    have hFirst : nodesOf taken = [] ↔ takes 0 = 1 := by
      have hPos := hTakes 0
      rw [← List.length_eq_zero_iff, hFull]
      omega
    rw [pagingFaithful_iff_eq hWhole hPages, ExportData.empty_append,
      foldl_addTo_append_iff settings _ taken later hRootPrefixes hRootKeys rfl rfl, hRootValues, nodesOf_append]
    constructor
    · rintro hGood ⟨hLeaf, hNode, hOne, hSome⟩
      rw [hLeaf, hNode] at hGood
      have hNone := hFirst.mpr hOne
      rw [hNone, List.nil_append] at hSome
      simp [hNone, hSome] at hGood
    · intro hNot
      by_contra hBad
      simp only [not_or, Classical.not_imp] at hBad
      obtain ⟨hNode, hLeaf, hNone, hSome⟩ := hBad
      refine hNot ⟨by simpa using hLeaf, by simpa using hNode, hFirst.mp hNone, ?_⟩
      rw [hNone, List.nil_append]
      exact hSome

/-- The pages are the whole, but for the value of the root where leaf values and no node values are asked for, the first
page takes the root alone and there is a node below it. -/
theorem pagingFaithful_iff (hTrie : FiniteTrie store root) (settings : ExportDataSettings) {takes : Nat → Nat}
    (hTakes : ∀ k, 0 < takes k) :
    PagingFaithful store settings root takes ↔
      ¬ (settings.flagLeafValues = true ∧ settings.flagNodeValues = false ∧ takes 0 = 1 ∧ RootHasPointer store root) := by
  obtain ⟨visits, hVisits⟩ := hTrie.exists_isTrie
  cases hVisits with
  | absent hAbsent =>
    have hExport : ∀ n : Nat, 0 < n → Reaches (sequentialExport store settings root none 0 n)
        (.ok (emptyExportData, none)) := by
      intro n hn
      have hSizes : ¬ ((0 : Int) = 0 ∧ (n : Int) = 0) := by omega
      rw [sequentialExport, if_neg hSizes, hAbsent]
      exact .pure _
    have hPages : Reaches (exportInPages store settings root takes) (.ok _) :=
      (RoundsReach.done (exportPage_last (s := ⟨none, 0, emptyExportData⟩) (hExport _ (hTakes 0)))).loop
    rw [pagingFaithful_iff_eq ⟨1, fun take hTake => hExport take (by omega)⟩ hPages, ExportData.empty_append]
    refine iff_of_true rfl ?_
    rintro ⟨-, -, -, node, i, p, ptr, ⟨bytes, hStore, -⟩, -⟩
    rw [hAbsent] at hStore
    cases hStore
  | @held node below hRoot hWalk =>
    obtain ⟨elements, hTour⟩ := hWalk.exists_tour settings
    have hPointer : nodesOf elements ≠ [] ↔ RootHasPointer store root := by
      rw [hTour.nodesOf_ne_nil_iff]
      constructor
      · rintro ⟨i, -, p, ptr, hItem⟩
        exact ⟨node, i, p, ptr, hRoot, hItem⟩
      · rintro ⟨node', i, p, ptr, hHolds, hItem⟩
        obtain rfl := hHolds.unique hRoot
        exact ⟨i, mem_allBytes i, p, ptr, hItem⟩
    obtain ⟨bytes, hStore, hDecode⟩ := hRoot
    rw [exportInPages_held hTakes hStore hDecode hTour, hPointer]

/-! A root with a pointer to the node of two leaves. -/

def pointerNode : Node := fun i => if i = 0 then .nodePtr [] twoLeavesRoot else .emptyItem

def pointerRoot : Bytes := List.replicate 32 8

def pointerStore : Bytes → Option Bytes := fun key =>
  if key = pointerRoot then some pointerNode.bytes else twoLeavesStore key

theorem pointerNode_wellFormed : pointerNode.WellFormed := by
  intro i
  rw [pointerNode]
  split
  · exact ⟨by decide, by decide⟩
  · trivial

theorem pointerNode_decodes : decodeNode pointerNode.bytes = .ok pointerNode := by
  rw [decodeNode, tryDecode_bytes pointerNode_wellFormed]
  rfl

theorem pointerStore_finite : FiniteTrie pointerStore pointerRoot := by
  have hChild : Holds pointerStore twoLeavesRoot twoLeaves := by
    obtain ⟨bytes, hStore, hDecode⟩ := twoLeaves_holds
    exact ⟨bytes, by rw [pointerStore, if_neg (by decide), hStore], hDecode⟩
  refine .inr (.intro ⟨_, if_pos rfl, pointerNode_decodes⟩ fun i p ptr hItem => ?_)
  rw [pointerNode] at hItem
  split at hItem
  · cases hItem
    refine .intro hChild fun j q target hLeaf => ?_
    rw [twoLeaves] at hLeaf
    split at hLeaf
    · cases hLeaf
    · split at hLeaf <;> cases hLeaf
  · cases hItem

theorem pagingFaithful_pairs : FiniteTrie pointerStore pointerRoot ∧
    PagingFaithful pointerStore pageSettings pointerRoot fun _ => 2 := by
  refine ⟨pointerStore_finite, (pagingFaithful_iff pointerStore_finite pageSettings fun _ => Nat.two_pos).mpr ?_⟩
  rintro ⟨-, -, hOne, -⟩
  exact absurd hOne (by decide)

/-- With the settings of the state sync and pages of one node, the first page has the value of the root and the
whole export has no value of a node. -/
theorem not_pagingFaithful_singles : FiniteTrie pointerStore pointerRoot ∧
    ¬ PagingFaithful pointerStore pageSettings pointerRoot fun _ => 1 := by
  refine ⟨pointerStore_finite, ?_⟩
  obtain ⟨visits, hVisits⟩ := pointerStore_finite.exists_isTrie
  cases hVisits with
  | absent hAbsent => exact absurd hAbsent (by rw [pointerStore, if_pos rfl]; exact Option.some_ne_none _)
  | held hRoot hWalk =>
    obtain rfl := hRoot.unique ⟨_, if_pos rfl, pointerNode_decodes⟩
    obtain ⟨elements, hTour⟩ := hWalk.exists_tour pageSettings
    have hSome : nodesOf elements ≠ [] := hTour.nodesOf_ne_nil_iff.mpr ⟨0, mem_allBytes 0, [], twoLeavesRoot, rfl⟩
    rw [exportInPages_held (fun _ => Nat.one_pos) (if_pos rfl) pointerNode_decodes hTour]
    exact not_not.mpr ⟨rfl, rfl, rfl, hSome⟩

end F1r3Node.StateSync
