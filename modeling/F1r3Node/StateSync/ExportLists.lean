import F1r3Node.StateSync.ExportPages

/-! # The lists of an export and what the walk comes by

Each list of an export is the part of it that the flag of the list selects; only the value of the root goes by the
flag of the leaf values.
-/

namespace F1r3Node.StateSync

open Shared
open History
open Lib
open Lib.Fuelled

def everything : ExportDataSettings := ⟨true, true, true, true, true⟩

def counted (skip : Int) (element : Element) (elements : List Element) : List Element :=
  if 0 < skip then elements else element :: elements

def countdown (skip take : Int) : Int × Int := if 0 < skip then (skip - 1, take) else (skip, take - 1)

/-- The depth-first walk from a stack of nodes, with what it takes and where it stops. -/
inductive Enumerates (store : Bytes → Option Bytes) :
    List NodeData → Int → Int → List Element → Option Bytes → Prop
  | ended (skip take : Int) : Enumerates store [] skip take [] none
  | stopped (top : NodeData) (rest : List NodeData) : Enumerates store (top :: rest) 0 0 [] (some top.pre)
  | left {top : NodeData} {rest : List NodeData} {skip take : Int} {elements : List Element} {stop : Option Bytes}
      (hCount : ¬ (skip = 0 ∧ take = 0))
      (hItem : findNextNonEmptyItem everything top.decoded top.lastItemIndex = none)
      (hRest : Enumerates store rest skip take elements stop) : Enumerates store (top :: rest) skip take elements stop
  | leaf {top : NodeData} {rest : List NodeData} {skip take : Int} {elements : List Element} {stop : Option Bytes}
      {i : UInt8} {p value : Bytes} (hCount : ¬ (skip = 0 ∧ take = 0))
      (hItem : findNextNonEmptyItem everything top.decoded top.lastItemIndex = some (i, .leaf p value))
      (hRest : Enumerates store ({ top with lastItemIndex := some i } :: rest) skip take elements stop) :
      Enumerates store (top :: rest) skip take (counted skip (.leaf (top.pre ++ i :: p) value) elements) stop
  | node {top : NodeData} {rest : List NodeData} {skip take : Int} {elements : List Element} {stop : Option Bytes}
      {i : UInt8} {p ptr bytes : Bytes} {child : Node} (hCount : ¬ (skip = 0 ∧ take = 0))
      (hItem : findNextNonEmptyItem everything top.decoded top.lastItemIndex = some (i, .nodePtr p ptr))
      (hStore : store ptr = some bytes) (hDecode : decodeNode bytes = .ok child)
      (hRest : Enumerates store (⟨top.pre ++ i :: p, child, none⟩ :: { top with lastItemIndex := some i } :: rest)
        (countdown skip take).1 (countdown skip take).2 elements stop) :
      Enumerates store (top :: rest) skip take (counted skip (.node (top.pre ++ i :: p) ptr bytes) elements) stop

/-- The walk of a whole export: nothing without a root, else from the root, which is the first node it comes by, or
from behind the node with the last prefix. -/
inductive Enumeration (store : Bytes → Option Bytes) (root : Bytes) :
    Option Bytes → Int → Int → List Element → Option Bytes → Prop
  | absent (lastPrefix : Option Bytes) (skip take : Int) (hAbsent : store root = none) :
      Enumeration store root lastPrefix skip take [] none
  | fromRoot {skip take : Int} {bytes : Bytes} {node : Node} {elements : List Element} {stop : Option Bytes}
      (hStore : store root = some bytes) (hDecode : decodeNode bytes = .ok node)
      (hBelow : Enumerates store [⟨[], node, none⟩] (countdown skip take).1 (countdown skip take).2 elements stop) :
      Enumeration store root none skip take (counted skip (.node [] root bytes) elements) stop
  | behind {pre : Bytes} {skip take : Int} {node : Node} {rest : List NodeData} {elements : List Element}
      {stop : Option Bytes} (hTrail : Trail store root (⟨pre, node, none⟩ :: rest))
      (hAfter : Enumerates store (⟨pre, node, none⟩ :: rest) skip take elements stop) :
      Enumeration store root (some pre) skip take elements stop

def selected (flag : Bool) (items : List Bytes) : List Bytes := if flag then items else []

def select (settings : ExportDataSettings) (elements : List Element) : ExportData where
  nodePrefixes := selected settings.flagNodePrefixes ((nodesOf elements).map fun n => n.1)
  nodeKeys := selected settings.flagNodeKeys ((nodesOf elements).map fun n => n.2.1)
  nodeValues := selected settings.flagNodeValues ((nodesOf elements).map fun n => n.2.2)
  leafPrefixes := selected settings.flagLeafPrefixes ((leavesOf elements).map fun l => l.1)
  leafValues := selected settings.flagLeafValues ((leavesOf elements).map fun l => l.2)

/-- The lists are the selected parts of the enumeration. So keys and values of the nodes go together, in a store where
every key is the hash of its value, and the value of a root that is not skipped is among the node values. -/
structure FaithfulLists (store : Bytes → Option Bytes) (settings : ExportDataSettings) (root : Bytes)
    (lastPrefix : Option Bytes) (skip take : Int) (data : ExportData) (stop : Option Bytes) : Prop where
  enumerated : ∃ elements, Enumeration store root lastPrefix skip take elements stop ∧ data = select settings elements
  aligned : settings.flagNodeKeys = true → settings.flagNodeValues = true →
    data.nodeKeys.length = data.nodeValues.length ∧
    ∀ hash : Bytes → Bytes, (∀ key value, store key = some value → hash value = key) →
      data.nodeKeys = data.nodeValues.map hash
  root : settings.flagNodeValues = true → settings.flagLeafValues = false → lastPrefix = none → ¬ 0 < skip →
    ∀ bytes, store root = some bytes → bytes ∈ data.nodeValues

variable {store : Bytes → Option Bytes} {settings : ExportDataSettings} {root : Bytes}

section enumerates

variable {path : List NodeData} {skip take : Int} {elements elements' : List Element} {stop stop' : Option Bytes}

theorem Enumerates.unique (h : Enumerates store path skip take elements stop)
    (h' : Enumerates store path skip take elements' stop') : elements = elements' := by
  induction h generalizing elements' with
  | ended => cases h'; rfl
  | stopped top rest =>
    cases h' with
    | stopped => rfl
    | left hCount => exact absurd ⟨rfl, rfl⟩ hCount
    | leaf hCount => exact absurd ⟨rfl, rfl⟩ hCount
    | node hCount => exact absurd ⟨rfl, rfl⟩ hCount
  | left hCount hItem hRest ih =>
    cases h' with
    | stopped => exact absurd ⟨rfl, rfl⟩ hCount
    | left _ _ hRest' => exact ih hRest'
    | leaf _ hItem' => cases hItem.symm.trans hItem'
    | node _ hItem' => cases hItem.symm.trans hItem'
  | leaf hCount hItem hRest ih =>
    cases h' with
    | stopped => exact absurd ⟨rfl, rfl⟩ hCount
    | left _ hItem' => cases hItem.symm.trans hItem'
    | leaf _ hItem' hRest' =>
      cases hItem.symm.trans hItem'
      rw [ih hRest']
    | node _ hItem' => cases hItem.symm.trans hItem'
  | node hCount hItem hStore hDecode hRest ih =>
    cases h' with
    | stopped => exact absurd ⟨rfl, rfl⟩ hCount
    | left _ hItem' => cases hItem.symm.trans hItem'
    | leaf _ hItem' => cases hItem.symm.trans hItem'
    | node _ hItem' hStore' hDecode' hRest' =>
      cases hItem.symm.trans hItem'
      cases hStore.symm.trans hStore'
      cases hDecode.symm.trans hDecode'
      rw [ih hRest']

end enumerates

theorem nextItem_everything (hOn : exportsLeaves settings = true) (node : Node) (indices : List UInt8) :
    nextItem everything node indices = nextItem settings node indices := by
  induction indices with
  | nil => rfl
  | cons i rest ih =>
    rw [nextItem, nextItem]
    cases node i with
    | emptyItem => exact ih
    | leaf p value =>
      rw [exportsLeaves] at hOn
      simp only [hOn]
      rfl
    | nodePtr p ptr => rfl

theorem nextItem_ne_empty (settings : ExportDataSettings) (node : Node) (indices : List UInt8) (i : UInt8) :
    nextItem settings node indices ≠ some (i, .emptyItem) := by
  fun_induction nextItem settings node indices with
  | case1 => exact nofun
  | case2 j rest hItem ih => exact ih
  | case3 => exact nofun
  | case4 j rest p value hItem hOff ih => exact ih
  | case5 => exact nofun

def LeavesOff (settings : ExportDataSettings) (data : ExportData) : Prop :=
  exportsLeaves settings = false → data.leafPrefixes = [] ∧ data.leafValues = []

theorem LeavesOff.addTo {data : ExportData} (h : LeavesOff settings data) (element : Element) :
    LeavesOff settings (addTo settings data element) := by
  intro hOff
  cases element with
  | node pre key value => exact h hOff
  | leaf pre value =>
    rw [exportsLeaves, Bool.or_eq_false_iff] at hOff
    rw [StateSync.addTo, hOff.1, hOff.2]
    exact ⟨rfl, rfl⟩

theorem addTo_leaf_off (hOff : exportsLeaves settings = false) {data : ExportData} (hData : LeavesOff settings data)
    (pre value : Bytes) : addTo settings data (.leaf pre value) = data := by
  obtain ⟨hPrefixes, hValues⟩ := hData hOff
  rw [exportsLeaves, Bool.or_eq_false_iff] at hOff
  rw [addTo, hOff.1, hOff.2]
  cases data with
  | mk nodePrefixes nodeKeys nodeValues leafPrefixes leafValues =>
    cases hPrefixes
    cases hValues
    rfl

def SameLists (settings : ExportDataSettings) (elements elements' : List Element) : Prop :=
  ∀ data, LeavesOff settings data → elements.foldl (addTo settings) data = elements'.foldl (addTo settings) data

theorem SameLists.counted_leaf (hOff : exportsLeaves settings = false) {elements elements' : List Element}
    (h : SameLists settings elements elements') (skip : Int) (pre value : Bytes) :
    SameLists settings (counted skip (.leaf pre value) elements) elements' := by
  intro data hData
  rw [counted]
  split
  · exact h data hData
  · rw [List.foldl_cons, addTo_leaf_off hOff hData]
    exact h data hData

section search

variable {skip take : Int}

theorem exists_before_next (hOff : exportsLeaves settings = false) (hCount : ¬ (skip = 0 ∧ take = 0))
    (top : NodeData) (rest : List NodeData) (indices : List UInt8) (k : Nat) (hIndices : allBytes.drop k = indices)
    (hSeen : findNextNonEmptyItem everything top.decoded top.lastItemIndex = nextItem everything top.decoded indices) :
    ∃ last, findNextNonEmptyItem everything top.decoded last = nextItem settings top.decoded indices ∧
      ∀ elements stop, Enumerates store ({ top with lastItemIndex := last } :: rest) skip take elements stop →
        ∃ elements', Enumerates store (top :: rest) skip take elements' stop ∧ SameLists settings elements' elements := by
  induction indices generalizing top k with
  | nil => exact ⟨top.lastItemIndex, hSeen, fun elements stop h => ⟨elements, h, fun _ _ => rfl⟩⟩
  | cons i later ih =>
    have hLater : allBytes.drop (k + 1) = later := drop_succ_allBytes hIndices
    rw [nextItem]
    rw [nextItem] at hSeen
    cases hItem : top.decoded i with
    | emptyItem =>
      rw [hItem] at hSeen
      exact ih top (k + 1) hLater hSeen
    | leaf p value =>
      rw [hItem] at hSeen
      have hNext : findNextNonEmptyItem everything top.decoded (some i) = nextItem everything top.decoded later := by
        rw [findNextNonEmptyItem, ← drop_allBytes hIndices]
      obtain ⟨last, hLast, hWalk⟩ := ih { top with lastItemIndex := some i } (k + 1) hLater hNext
      rw [exportsLeaves] at hOff
      simp only [hOff, Bool.false_eq_true, if_false]
      refine ⟨last, hLast, fun elements stop h => ?_⟩
      obtain ⟨elements', hElements, hSame⟩ := hWalk elements stop h
      exact ⟨_, .leaf hCount hSeen hElements, hSame.counted_leaf hOff skip _ _⟩
    | nodePtr p ptr =>
      rw [hItem] at hSeen
      exact ⟨top.lastItemIndex, hSeen, fun elements stop h => ⟨elements, h, fun _ _ => rfl⟩⟩

theorem exists_before_search (settings : ExportDataSettings) (hCount : ¬ (skip = 0 ∧ take = 0)) (top : NodeData)
    (rest : List NodeData) :
    ∃ last, findNextNonEmptyItem everything top.decoded last =
        findNextNonEmptyItem settings top.decoded top.lastItemIndex ∧
      ∀ elements stop, Enumerates store ({ top with lastItemIndex := last } :: rest) skip take elements stop →
        ∃ elements', Enumerates store (top :: rest) skip take elements' stop ∧ SameLists settings elements' elements := by
  cases hLeaves : exportsLeaves settings with
  | true =>
    refine ⟨top.lastItemIndex, nextItem_everything hLeaves _ _, fun elements stop h => ⟨elements, h, fun _ _ => rfl⟩⟩
  | false =>
    obtain ⟨k, hk⟩ := exists_drop_indicesAfter top.lastItemIndex
    exact exists_before_next hLeaves hCount top rest _ k hk.symm rfl

end search

section loop

variable {top : NodeData} {rest : List NodeData} {skip take : Int} {data : ExportData}

theorem exportStep_searching (hCount : ¬ (skip = 0 ∧ take = 0)) : exportStep store settings ⟨top :: rest, skip, take, data⟩ =
    match findNextNonEmptyItem settings top.decoded top.lastItemIndex with
    | some (itemIndex, item) => do
      return .inl (← addElement store settings ⟨top :: rest, skip, take, data⟩ itemIndex item top rest)
    | none => .ok (.inl ⟨rest, skip, take, data⟩) := if_neg hCount

theorem addElement_leaf (path : List NodeData) (i : UInt8) (p value : Bytes) :
    addElement store settings ⟨path, skip, take, data⟩ i (.leaf p value) top rest =
      .ok ⟨{ top with lastItemIndex := some i } :: rest, skip, take,
        (counted skip (.leaf (top.pre ++ i :: p) value) []).foldl (addTo settings) data⟩ := by
  rw [addElement, addLeaf, counted]
  split <;> rfl

theorem addElement_node (path : List NodeData) (i : UInt8) (p : Bytes) {ptr bytes : Bytes} {child : Node}
    (hStore : store ptr = some bytes) (hDecode : decodeNode bytes = .ok child) :
    addElement store settings ⟨path, skip, take, data⟩ i (.nodePtr p ptr) top rest =
      .ok ⟨⟨top.pre ++ i :: p, child, none⟩ :: { top with lastItemIndex := some i } :: rest, (countdown skip take).1,
        (countdown skip take).2, (counted skip (.node (top.pre ++ i :: p) ptr bytes) []).foldl (addTo settings) data⟩ := by
  simp only [addElement, addNodePtr, hStore, hDecode, counted, countdown]
  split <;> rfl

theorem addElement_node_held {path : List NodeData} {i : UInt8} {p ptr : Bytes} {s : StepData}
    (h : addElement store settings ⟨path, skip, take, data⟩ i (.nodePtr p ptr) top rest = .ok s) :
    ∃ bytes child, store ptr = some bytes ∧ decodeNode bytes = .ok child := by
  simp only [addElement, addNodePtr] at h
  cases hStore : store ptr with
  | none =>
    rw [hStore] at h
    cases h
  | some bytes =>
    rw [hStore] at h
    cases hDecode : decodeNode bytes with
    | error e =>
      simp only [hDecode] at h
      cases h
    | ok child => exact ⟨bytes, child, rfl, hDecode⟩

theorem foldl_counted (element : Element) (elements : List Element) (data : ExportData) :
    (counted skip element elements).foldl (addTo settings) data =
      elements.foldl (addTo settings) ((counted skip element []).foldl (addTo settings) data) := by
  rw [counted, counted]
  split <;> rfl

theorem LeavesOff.counted (h : LeavesOff settings data) (element : Element) :
    LeavesOff settings ((counted skip element []).foldl (StateSync.addTo settings) data) := by
  rw [StateSync.counted]
  split
  · exact h
  · exact h.addTo element

theorem enumerates_of_rounds {path : List NodeData} {data' : ExportData} {stop : Option Bytes} {fuel n : Nat}
    (hRun : rounds (fun p => Fuelled.ofExcept (exportStep store settings p)) fuel n ⟨path, skip, take, data⟩ =
      some (.ok (data', stop))) (hData : LeavesOff settings data) :
    ∃ elements, Enumerates store path skip take elements stop ∧ data' = elements.foldl (addTo settings) data := by
  induction n generalizing path skip take data with
  | zero => cases hRun
  | succ n ih =>
    have hStep : ∀ s, ((fun p => Fuelled.ofExcept (exportStep store settings p)) s).within fuel =
        some (exportStep store settings s) := fun _ => rfl
    rw [rounds, hStep] at hRun
    cases path with
    | nil =>
      cases hRun
      exact ⟨[], .ended _ _, rfl⟩
    | cons top rest =>
      by_cases hCount : skip = 0 ∧ take = 0
      · obtain ⟨rfl, rfl⟩ := hCount
        cases hRun
        exact ⟨[], .stopped _ _, rfl⟩
      · rw [exportStep_searching hCount] at hRun
        obtain ⟨last, hLast, hWalk⟩ := @exists_before_search store skip take settings hCount top rest
        -- what the step does from behind the leaves that it does not see is enough
        suffices hFrom : ∃ elements, Enumerates store ({ top with lastItemIndex := last } :: rest) skip take elements stop ∧
            data' = elements.foldl (addTo settings) data by
          obtain ⟨elements, hElements, rfl⟩ := hFrom
          obtain ⟨elements', hElements', hSame⟩ := hWalk elements stop hElements
          exact ⟨elements', hElements', (hSame data hData).symm⟩
        cases hFound : findNextNonEmptyItem settings top.decoded top.lastItemIndex with
        | none =>
          rw [hFound] at hRun hLast
          obtain ⟨elements, hElements, rfl⟩ := ih hRun hData
          exact ⟨elements, .left hCount hLast hElements, rfl⟩
        | some found =>
          obtain ⟨i, item⟩ := found
          rw [hFound] at hRun hLast
          cases item with
          | emptyItem => exact absurd hFound (nextItem_ne_empty settings _ _ i)
          | leaf p value =>
            simp only [addElement_leaf] at hRun
            obtain ⟨elements, hElements, rfl⟩ := ih hRun (hData.counted _)
            exact ⟨_, .leaf hCount hLast hElements, (foldl_counted _ _ _).symm⟩
          | nodePtr p ptr =>
            cases hAdded : addElement store settings ⟨top :: rest, skip, take, data⟩ i (.nodePtr p ptr) top rest with
            | error e =>
              simp only [hAdded] at hRun
              cases hRun
            | ok s =>
              obtain ⟨bytes, child, hStore, hDecode⟩ := addElement_node_held hAdded
              simp only [addElement_node _ _ _ hStore hDecode] at hRun
              obtain ⟨elements, hElements, rfl⟩ := ih hRun (hData.counted _)
              exact ⟨_, .node hCount hLast hStore hDecode hElements, (foldl_counted _ _ _).symm⟩

end loop

theorem commonPrefix_append_rests (l r : Bytes) :
    (commonPrefix l r).1 ++ (commonPrefix l r).2.1 = l ∧ (commonPrefix l r).1 ++ (commonPrefix l r).2.2 = r := by
  fun_induction commonPrefix l r with
  | case1 ls i rs common lRest rRest hRec ih =>
    rw [hRec] at ih
    exact ⟨congrArg (i :: ·) ih.1, congrArg (i :: ·) ih.2⟩
  | case2 => exact ⟨rfl, rfl⟩
  | case3 => exact ⟨rfl, rfl⟩

theorem processChildItem_cases {p next : NodePathData} {node : Node} {i : UInt8} {tail : Bytes}
    (h : processChildItem p node i tail = .ok next) :
    ∃ q ptr rest, tail = q ++ rest ∧ node i = .nodePtr q ptr ∧
      next = ⟨ptr, p.nodePrefix ++ i :: q, rest, ⟨p.nodePrefix, node, some i⟩ :: p.path⟩ := by
  rw [processChildItem] at h
  cases hItem : node i with
  | emptyItem =>
    rw [hItem] at h
    cases h
  | leaf q value =>
    rw [hItem] at h
    cases h
  | nodePtr q ptr =>
    simp only [hItem] at h
    obtain ⟨hTail, hPtr⟩ := commonPrefix_append_rests tail q
    split at h
    · cases h
    · rename_i hRests
      rw [not_not] at hRests
      rw [hRests, List.append_nil] at hPtr
      cases h
      rw [hPtr] at hTail ⊢
      exact ⟨q, ptr, _, hTail.symm, rfl, rfl⟩

theorem initNodePath_cases {p : NodePathData} {outcome : NodePathData ⊕ List NodeData}
    (h : initNodePath store p = .ok outcome) :
    ∃ node, Holds store p.hash node ∧
      ((p.restPrefix = [] ∧ outcome = .inr (⟨p.nodePrefix, node, none⟩ :: p.path)) ∨
      ∃ i q ptr rest, p.restPrefix = i :: (q ++ rest) ∧ node i = .nodePtr q ptr ∧
        outcome = .inl ⟨ptr, p.nodePrefix ++ i :: q, rest, ⟨p.nodePrefix, node, some i⟩ :: p.path⟩) := by
  rw [initNodePath] at h
  cases hStore : store p.hash with
  | none =>
    rw [hStore] at h
    cases h
  | some bytes =>
    simp only [hStore] at h
    cases hDecode : decodeNode bytes with
    | error e =>
      rw [hDecode] at h
      cases h
    | ok node =>
      rw [hDecode] at h
      refine ⟨node, ⟨bytes, hStore, hDecode⟩, ?_⟩
      cases hRest : p.restPrefix with
      | nil =>
        simp only [hRest] at h
        cases h
        exact .inl ⟨rfl, rfl⟩
      | cons i tail =>
        simp only [hRest] at h
        change (do return Sum.inl (← processChildItem p node i tail) :
          Except ExportError (NodePathData ⊕ List NodeData)) = _ at h
        cases hChild : processChildItem p node i tail with
        | error e =>
          rw [hChild] at h
          cases h
        | ok next =>
          rw [hChild] at h
          cases h
          obtain ⟨q, ptr, rest, rfl, hItem, rfl⟩ := processChildItem_cases hChild
          exact .inr ⟨i, q, ptr, rest, rfl, hItem, rfl⟩

theorem trail_of_rounds {p : NodePathData} {path : List NodeData} {fuel n : Nat}
    (hRun : rounds (fun p => Fuelled.ofExcept (initNodePath store p)) fuel n p = some (.ok path))
    (hTrail : ∀ node last, Holds store p.hash node → Trail store root (⟨p.nodePrefix, node, last⟩ :: p.path)) :
    ∃ node rest, path = ⟨p.nodePrefix ++ p.restPrefix, node, none⟩ :: rest ∧ Trail store root path := by
  induction n generalizing p with
  | zero => cases hRun
  | succ n ih =>
    have hStep : ((fun p => Fuelled.ofExcept (initNodePath store p)) p).within fuel =
        some (initNodePath store p) := rfl
    rw [rounds, hStep] at hRun
    cases hInit : initNodePath store p with
    | error e =>
      rw [hInit] at hRun
      cases hRun
    | ok outcome =>
      rw [hInit] at hRun
      obtain ⟨node, hNode, ⟨hEnd, rfl⟩ | ⟨i, q, ptr, rest, hRest, hItem, rfl⟩⟩ := initNodePath_cases hInit
      · cases hRun
        rw [hEnd, List.append_nil]
        exact ⟨node, p.path, rfl, hTrail node none hNode⟩
      · obtain ⟨child, below, rfl, hChild⟩ := ih hRun fun child last hChild =>
          .child (hTrail node (some i) hNode) hItem hChild last
        refine ⟨child, below, ?_, hChild⟩
        rw [hRest]
        simp only [List.append_assoc, List.cons_append]

theorem exists_roundsReach_initNodePath (p : NodePathData) :
    ∃ r, RoundsReach (fun p => Fuelled.ofExcept (initNodePath store p)) p r := by
  generalize hLength : p.restPrefix.length = length
  induction length using Nat.strong_induction_on generalizing p with
  | _ length ih =>
    cases hInit : initNodePath store p with
    | error e => exact ⟨_, .error (.of_eq hInit)⟩
    | ok outcome =>
      obtain ⟨node, hNode, ⟨hEnd, rfl⟩ | ⟨i, q, ptr, rest, hRest, hItem, rfl⟩⟩ := initNodePath_cases hInit
      · exact ⟨_, .done (.of_eq hInit)⟩
      · obtain ⟨r, hReach⟩ := ih rest.length
          (by rw [← hLength, hRest, List.length_cons, List.length_append]; omega)
          ⟨ptr, p.nodePrefix ++ i :: q, rest, ⟨p.nodePrefix, node, some i⟩ :: p.path⟩ rfl
        exact ⟨r, .next (.of_eq hInit) hReach⟩

theorem Trail.finiteBelow {path rest : List NodeData} {top : NodeData} (h : Trail store root path)
    (hFinite : FiniteBelow store root) (hPath : path = top :: rest) {i : UInt8} {p ptr : Bytes}
    (hItem : top.decoded i = .nodePtr p ptr) : FiniteBelow store ptr := by
  induction h generalizing top rest i p ptr with
  | nil => cases hPath
  | root hRoot last =>
    cases hPath
    cases hFinite with
    | intro hNode hChildren =>
      obtain rfl := hRoot.unique hNode
      exact hChildren i p ptr hItem
  | child hParent hAbove hChild last ih =>
    cases hPath
    cases ih rfl hAbove with
    | intro hNode hChildren =>
      obtain rfl := hChild.unique hNode
      exact hChildren i p ptr hItem

theorem Trail.exists_emits {path : List NodeData} (h : Trail store root path) (hFinite : FiniteBelow store root)
    (settings : ExportDataSettings) : ∃ elements, Emits store settings path elements := by
  induction path with
  | nil => exact ⟨[], .nil⟩
  | cons top rest ih =>
    obtain ⟨later, hLater⟩ := ih h.tail
    have hChildren : ∀ i p ptr, top.decoded i = .nodePtr p ptr → ∃ child, Holds store ptr child ∧
        ∀ pre, ∃ inner, Walk store pre child allBytes inner :=
      fun i p ptr hItem => (h.finiteBelow hFinite rfl hItem).exists_walk
    obtain ⟨visits, hWalk⟩ := exists_walk hChildren top.pre (indicesAfter top.lastItemIndex)
    obtain ⟨elements, hTour⟩ := hWalk.exists_tour settings
    exact ⟨_, .cons hTour hLater⟩

theorem exists_roundsReach_exportStep {path : List NodeData} {elements : List Element}
    (hEmits : Emits store settings path elements) (skip take : Int) (data : ExportData) :
    ∃ r, RoundsReach (fun p => Fuelled.ofExcept (exportStep store settings p)) ⟨path, skip, take, data⟩ r := by
  generalize hMeasure : 2 * elements.length + path.length = measure
  induction measure using Nat.strong_induction_on generalizing path elements skip take data with
  | _ measure ih =>
    cases path with
    | nil => exact ⟨_, .done (.ofExcept _)⟩
    | cons top rest =>
      by_cases hCount : skip = 0 ∧ take = 0
      · obtain ⟨rfl, rfl⟩ := hCount
        exact ⟨_, .done (.of_eq (exportStep_ended rest data))⟩
      · have hStep := @exportStep_searching store settings top rest skip take data hCount
        obtain ⟨hNext, hRest⟩ | ⟨i, p, value, later, hNext, rfl, hLater⟩ | ⟨i, p, ptr, bytes, child, later, hNext, -,
          hStore, hDecode, rfl, hLater⟩ := hEmits.next
        · rw [hNext] at hStep
          obtain ⟨r, hReach⟩ := ih (2 * elements.length + rest.length)
            (by rw [← hMeasure, List.length_cons]; omega) hRest skip take data rfl
          exact ⟨r, .next (.of_eq hStep) hReach⟩
        · simp only [hNext, addElement_leaf] at hStep
          obtain ⟨r, hReach⟩ := ih _ (by rw [← hMeasure]; simp only [List.length_cons]; omega) hLater skip take _ rfl
          exact ⟨r, .next (.of_eq hStep) hReach⟩
        · simp only [hNext, addElement_node _ _ _ hStore hDecode] at hStep
          obtain ⟨r, hReach⟩ := ih _ (by rw [← hMeasure]; simp only [List.length_cons]; omega) hLater _ _ _ rfl
          exact ⟨r, .next (.of_eq hStep) hReach⟩

theorem startParams_none (settings : ExportDataSettings) (root bytes : Bytes) (skip take : Int) (path : List NodeData) :
    startParams settings root bytes none skip take path = ⟨path, (countdown skip take).1, (countdown skip take).2,
      if 0 < skip then emptyExportData else rootExportData settings root bytes⟩ := by
  rw [startParams, countdown]
  split <;> rfl

theorem sequentialExport_ends (hTrie : FiniteTrie store root) (settings : ExportDataSettings)
    (lastPrefix : Option Bytes) (skip take : Int) :
    ∃ outcome, Reaches (sequentialExport store settings root lastPrefix skip take) outcome := by
  rw [sequentialExport]
  split
  · exact ⟨_, .throw _⟩
  · obtain hAbsent | hFinite := hTrie
    · rw [hAbsent]
      exact ⟨_, .pure _⟩
    · cases hStore : store root with
      | none => exact ⟨_, .pure _⟩
      | some bytes =>
        obtain ⟨found, hFound⟩ := @exists_roundsReach_initNodePath store ⟨root, [], lastPrefix.getD [], []⟩
        cases found with
        | error e => exact ⟨_, .bind_error hFound.loop⟩
        | ok path =>
          obtain ⟨bound, hBound⟩ := hFound.enough
          obtain ⟨-, -, -, hTrail⟩ := trail_of_rounds (hBound bound bound le_rfl le_rfl)
            fun node last hNode => Trail.root hNode last
          obtain ⟨elements, hEmits⟩ := hTrail.exists_emits hFinite settings
          obtain ⟨outcome, hReach⟩ : ∃ r, RoundsReach (fun p => Fuelled.ofExcept (exportStep store settings p))
              (startParams settings root bytes lastPrefix skip take path) r := by
            cases lastPrefix with
            | some pre => exact exists_roundsReach_exportStep hEmits _ _ _
            | none =>
              rw [startParams_none]
              exact exists_roundsReach_exportStep hEmits _ _ _
          exact ⟨outcome, .bind hFound.loop hReach.loop⟩

theorem pushAll_nil (flag : Bool) (news : List Bytes) : pushAll flag [] news = selected flag news := by
  cases flag with
  | true => exact pushAll_on [] news
  | false =>
    cases news with
    | nil => rfl
    | cons item news => exact pushAll_off [] (List.cons_ne_nil item news)

theorem pushAll_selected (flag : Bool) (item : Bytes) (news : List Bytes) :
    pushAll flag (if flag then [item] else []) news = selected flag (item :: news) := by
  cases flag with
  | true => exact pushAll_on [item] news
  | false => exact pushAll_nil false news

theorem pushAll_other_iff (flag other : Bool) (item : Bytes) (news : List Bytes) :
    pushAll flag (if other then [item] else []) news = selected flag (item :: news) ↔
      flag = other ∨ flag = false ∧ other = true ∧ news ≠ [] := by
  cases flag with
  | true => cases other <;> simp [pushAll_on, selected]
  | false =>
    cases other with
    | false => simp [pushAll_nil, selected]
    | true =>
      cases news with
      | nil => simp [pushAll, selected]
      | cons item' news => simp [pushAll_off [item] (List.cons_ne_nil item' news), selected]

theorem foldl_addTo_empty (settings : ExportDataSettings) (elements : List Element) :
    elements.foldl (addTo settings) emptyExportData = select settings elements := by
  rw [foldl_addTo]
  simp only [emptyExportData, pushAll_nil]
  rfl

theorem foldl_addTo_root_iff (settings : ExportDataSettings) (root bytes : Bytes) (elements : List Element) :
    elements.foldl (addTo settings) (rootExportData settings root bytes) =
        select settings (.node [] root bytes :: elements) ↔
      settings.flagNodeValues = settings.flagLeafValues ∨
      settings.flagNodeValues = false ∧ settings.flagLeafValues = true ∧ nodesOf elements ≠ [] := by
  rw [foldl_addTo, select, ExportData.mk.injEq]
  simp only [rootExportData, nodesOf_node, List.map_cons, pushAll_selected, pushAll_nil, pushAll_other_iff, true_and,
    ne_eq, List.map_eq_nil_iff]
  exact ⟨fun h => h.1, fun h => ⟨h, rfl, rfl⟩⟩

section enumeration

variable {lastPrefix stop : Option Bytes} {skip take : Int} {elements : List Element}

theorem mem_nodesOf_counted {element : Element} {n : Bytes × Bytes × Bytes}
    (h : n ∈ nodesOf (counted skip element elements)) : n ∈ nodesOf [element] ∨ n ∈ nodesOf elements := by
  rw [counted] at h
  split at h
  · exact .inr h
  · rwa [← List.singleton_append, nodesOf_append, List.mem_append] at h

theorem Enumerates.stored {path : List NodeData} (h : Enumerates store path skip take elements stop) :
    ∀ n ∈ nodesOf elements, store n.2.1 = some n.2.2 := by
  induction h with
  | ended => exact nofun
  | stopped => exact nofun
  | left hCount hItem hRest ih => exact ih
  | leaf hCount hItem hRest ih =>
    intro n hMem
    obtain hOwn | hLater := mem_nodesOf_counted hMem
    · cases hOwn
    · exact ih n hLater
  | node hCount hItem hStore hDecode hRest ih =>
    intro n hMem
    obtain hOwn | hLater := mem_nodesOf_counted hMem
    · obtain rfl := List.mem_singleton.mp hOwn
      exact hStore
    · exact ih n hLater

theorem Enumeration.stored (h : Enumeration store root lastPrefix skip take elements stop) :
    ∀ n ∈ nodesOf elements, store n.2.1 = some n.2.2 := by
  cases h with
  | absent => exact nofun
  | fromRoot hStore hDecode hBelow =>
    intro n hMem
    obtain hOwn | hLater := mem_nodesOf_counted hMem
    · obtain rfl := List.mem_singleton.mp hOwn
      exact hStore
    · exact hBelow.stored n hLater
  | behind hTrail hAfter => exact hAfter.stored

theorem Enumeration.faithfulLists (h : Enumeration store root lastPrefix skip take elements stop)
    (settings : ExportDataSettings) :
    FaithfulLists store settings root lastPrefix skip take (select settings elements) stop where
  enumerated := ⟨elements, h, rfl⟩
  aligned hKeys hValues := by
    simp only [select, hKeys, hValues, selected, if_true, List.length_map, List.map_map, true_and]
    intro hash hHash
    exact List.map_congr_left fun n hMem => (hHash n.2.1 n.2.2 (h.stored n hMem)).symm
  root hValues _ hNone hSkip bytes hBytes := by
    cases h with
    | absent _ _ _ hAbsent => cases hAbsent.symm.trans hBytes
    | fromRoot hStore hDecode hBelow =>
      obtain rfl := Option.some.inj (hStore.symm.trans hBytes)
      simp [select, selected, hValues, counted, hSkip]
    | behind hTrail hAfter => cases hNone

theorem Enumeration.unique_root {elements' : List Element} (h : Enumeration store root none skip take elements stop)
    (h' : Enumeration store root none skip take elements' stop) : elements = elements' := by
  cases h with
  | absent _ _ _ hAbsent =>
    cases h' with
    | absent => rfl
    | fromRoot hStore' => cases hAbsent.symm.trans hStore'
  | fromRoot hStore hDecode hBelow =>
    cases h' with
    | absent _ _ _ hAbsent => cases hAbsent.symm.trans hStore
    | fromRoot hStore' hDecode' hBelow' =>
      cases hStore.symm.trans hStore'
      cases hDecode.symm.trans hDecode'
      rw [hBelow.unique hBelow']

theorem exists_pointer_iff (node : Node) (indices : List UInt8) (k : Nat) (hIndices : allBytes.drop k = indices) :
    (∃ i ∈ indices, ∃ p ptr, node i = .nodePtr p ptr) ↔
      match nextItem everything node indices with
      | some (_, .nodePtr _ _) => True
      | some (i, _) => ∃ j ∈ indicesAfter (some i), ∃ p ptr, node j = .nodePtr p ptr
      | none => False := by
  induction indices generalizing k with
  | nil => simp [nextItem]
  | cons i rest ih =>
    rw [nextItem]
    cases hItem : node i with
    | emptyItem => simpa [hItem] using ih (k + 1) (drop_succ_allBytes hIndices)
    | leaf p value => simp [everything, hItem, drop_allBytes hIndices]
    | nodePtr p ptr => simp [hItem]

theorem Enumerates.nodesOf_ne_nil_iff {path : List NodeData} {top : NodeData}
    (h : Enumerates store path skip take elements stop) (hPath : path = [top]) (hSkip : ¬ 0 < skip) :
    nodesOf elements ≠ [] ↔ ¬ (skip = 0 ∧ take = 0) ∧
      ∃ i ∈ indicesAfter top.lastItemIndex, ∃ p ptr, top.decoded i = .nodePtr p ptr := by
  have hPointer : ∀ top : NodeData, (∃ i ∈ indicesAfter top.lastItemIndex, ∃ p ptr, top.decoded i = .nodePtr p ptr) ↔
      match findNextNonEmptyItem everything top.decoded top.lastItemIndex with
      | some (_, .nodePtr _ _) => True
      | some (i, _) => ∃ j ∈ indicesAfter (some i), ∃ p ptr, top.decoded j = .nodePtr p ptr
      | none => False := by
    intro top
    obtain ⟨k, hk⟩ := exists_drop_indicesAfter top.lastItemIndex
    exact exists_pointer_iff top.decoded _ k hk.symm
  induction h generalizing top with
  | ended => cases hPath
  | stopped => simp
  | left hCount hItem hRest =>
    obtain ⟨rfl, rfl⟩ := List.cons.inj hPath
    cases hRest
    rw [hPointer, hItem]
    simp
  | leaf hCount hItem hRest ih =>
    obtain ⟨rfl, rfl⟩ := List.cons.inj hPath
    rw [hPointer, hItem, counted, if_neg hSkip, nodesOf_leaf]
    exact ih rfl hSkip
  | node hCount hItem =>
    obtain ⟨rfl, rfl⟩ := List.cons.inj hPath
    rw [hPointer, hItem, counted, if_neg hSkip, nodesOf_node]
    simp [hCount]

end enumeration

section exports

variable {lastPrefix stop : Option Bytes} {skip take : Int} {data : ExportData}

theorem exists_enumeration {fuel : Nat}
    (h : (sequentialExport store settings root lastPrefix skip take).within fuel = some (.ok (data, stop))) :
    (∃ elements, Enumeration store root lastPrefix skip take elements stop ∧ data = select settings elements ∧
      (lastPrefix ≠ none ∨ 0 < skip ∨ store root = none)) ∨
    ∃ bytes node below, store root = some bytes ∧ decodeNode bytes = .ok node ∧
      Enumerates store [⟨[], node, none⟩] (countdown skip take).1 (countdown skip take).2 below stop ∧
      data = below.foldl (addTo settings) (rootExportData settings root bytes) ∧ lastPrefix = none ∧ ¬ 0 < skip := by
  rw [sequentialExport] at h
  split at h
  · cases h
  · cases hStore : store root with
    | none =>
      rw [hStore] at h
      cases h
      exact .inl ⟨[], .absent _ _ _ hStore, foldl_addTo_empty settings [], .inr (.inr rfl)⟩
    | some bytes =>
      rw [hStore] at h
      obtain ⟨path, hInit, hExport⟩ := exists_of_within_bind h
      obtain ⟨node, rest, rfl, hTrail⟩ := trail_of_rounds hInit fun node last hNode => Trail.root hNode last
      cases lastPrefix with
      | some pre =>
        obtain ⟨elements, hElements, rfl⟩ := enumerates_of_rounds hExport fun _ => ⟨rfl, rfl⟩
        exact .inl ⟨elements, .behind hTrail hElements, foldl_addTo_empty _ _, .inl (Option.some_ne_none pre)⟩
      | none =>
        obtain ⟨rfl, hRoot⟩ : rest = [] ∧ Holds store root node := by
          generalize hPre : ([] : Bytes) ++ Option.getD none [] = pre at hTrail
          cases hTrail with
          | root hRoot => exact ⟨rfl, hRoot⟩
          | child => simp at hPre
        obtain ⟨bytes', hStore', hDecode⟩ := hRoot
        obtain rfl := Option.some.inj (hStore.symm.trans hStore')
        rw [startParams_none] at hExport
        obtain ⟨below, hBelow, hData⟩ := enumerates_of_rounds hExport
          (fun _ => by split <;> exact ⟨rfl, rfl⟩)
        by_cases hSkip : 0 < skip
        · refine .inl ⟨_, .fromRoot hStore hDecode hBelow, ?_, .inr (.inl hSkip)⟩
          rw [hData, counted, if_pos hSkip, if_pos hSkip, foldl_addTo_empty]
        · rw [if_neg hSkip] at hData
          exact .inr ⟨bytes, node, below, rfl, hDecode, hBelow, hData, rfl, hSkip⟩

/-- The lists are the selected parts of the enumeration except where the root is taken and its value goes by the wrong
flag, unless another node is taken after it. -/
theorem faithfulLists_iff (store : Bytes → Option Bytes) (settings : ExportDataSettings) (root : Bytes)
    (lastPrefix : Option Bytes) (skip take : Int) :
    (FiniteTrie store root → ∃ outcome, Reaches (sequentialExport store settings root lastPrefix skip take) outcome) ∧
    ∀ data stop, Reaches (sequentialExport store settings root lastPrefix skip take) (.ok (data, stop)) →
      (FaithfulLists store settings root lastPrefix skip take data stop ↔
        lastPrefix ≠ none ∨ 0 < skip ∨ store root = none ∨ settings.flagNodeValues = settings.flagLeafValues ∨
        (settings.flagNodeValues = false ∧ settings.flagLeafValues = true ∧ ¬ (skip = 0 ∧ take = 1) ∧
          RootHasPointer store root)) := by
  refine ⟨fun hTrie => sequentialExport_ends hTrie settings lastPrefix skip take, fun data stop hReach => ?_⟩
  obtain ⟨bound, hBound⟩ := hReach.enough
  obtain ⟨elements, hElements, rfl, hPlace⟩ | ⟨bytes, node, below, hStore, hDecode, hBelow, rfl, rfl, hSkip⟩ :=
    exists_enumeration (hBound bound le_rfl)
  · refine iff_of_true (hElements.faithfulLists settings) ?_
    obtain hLast | hSkip | hAbsent := hPlace
    · exact .inl hLast
    · exact .inr (.inl hSkip)
    · exact .inr (.inr (.inl hAbsent))
  · have hWhole : Enumeration store root none skip take (.node [] root bytes :: below) stop := by
      have h := Enumeration.fromRoot hStore hDecode hBelow
      rwa [counted, if_neg hSkip] at h
    have hFaithful : FaithfulLists store settings root none skip take
        (below.foldl (addTo settings) (rootExportData settings root bytes)) stop ↔
        below.foldl (addTo settings) (rootExportData settings root bytes) =
          select settings (.node [] root bytes :: below) := by
      constructor
      · rintro ⟨⟨elements, hElements, hSame⟩, -, -⟩
        rw [hSame, hElements.unique_root hWhole]
      · intro hSame
        rw [hSame]
        exact hWhole.faithfulLists settings
    have hPointer : nodesOf below ≠ [] ↔ ¬ (skip = 0 ∧ take = 1) ∧ RootHasPointer store root := by
      rw [countdown, if_neg hSkip] at hBelow
      have hOne : take - 1 = 0 ↔ take = 1 := by omega
      refine (hBelow.nodesOf_ne_nil_iff rfl hSkip).trans ?_
      rw [hOne]
      refine and_congr_right fun _ => ⟨?_, ?_⟩
      · rintro ⟨i, -, p, ptr, hItem⟩
        exact ⟨node, i, p, ptr, ⟨bytes, hStore, hDecode⟩, hItem⟩
      · rintro ⟨node', i, p, ptr, hHolds, hItem⟩
        obtain rfl := hHolds.unique ⟨bytes, hStore, hDecode⟩
        exact ⟨i, mem_allBytes i, p, ptr, hItem⟩
    rw [hFaithful, foldl_addTo_root_iff, hPointer]
    simp only [ne_eq, not_true_eq_false, hSkip, hStore, reduceCtorEq, false_or]

end exports

def nodeSettings : ExportDataSettings := ⟨false, true, true, false, false⟩

/-- The key of the root is exported without its value. -/
theorem not_faithfulLists_nodes : ∃ data stop, FiniteTrie twoLeavesStore twoLeavesRoot ∧
    Reaches (sequentialExport twoLeavesStore nodeSettings twoLeavesRoot none 0 10) (.ok (data, stop)) ∧
    data.nodeKeys = [twoLeavesRoot] ∧ data.nodeValues = [] ∧
    ¬ FaithfulLists twoLeavesStore nodeSettings twoLeavesRoot none 0 10 data stop := by
  obtain ⟨bytes, hStore, hDecode⟩ := twoLeaves_holds
  obtain ⟨visits, hVisits⟩ := twoLeaves_finite.exists_isTrie
  cases hVisits with
  | absent hAbsent => cases hAbsent.symm.trans hStore
  | held hRoot hWalk =>
    obtain rfl := hRoot.unique twoLeaves_holds
    obtain ⟨elements, hTour⟩ := hWalk.exists_tour nodeSettings
    have hNodes : nodesOf elements = [] := by
      by_contra hSome
      obtain ⟨i, -, p, ptr, hItem⟩ := hTour.nodesOf_ne_nil_iff.mp hSome
      rw [twoLeaves] at hItem
      split at hItem
      · cases hItem
      · split at hItem <;> cases hItem
    obtain ⟨-, hReach⟩ | ⟨taken, later, pre, hStops, -⟩ :=
      sequentialExport_first hStore hDecode hTour (by decide : 0 < 10)
    · refine ⟨_, _, twoLeaves_finite, hReach, ?_⟩
      rw [foldl_addTo, hNodes]
      refine ⟨rfl, rfl, fun hFaithful => ?_⟩
      have hLengths : 1 = 0 := (hFaithful.aligned rfl rfl).1
      cases hLengths
    · have hLength := hStops.full
      have hSplit := congrArg (fun elements => (nodesOf elements).length) hStops.split
      simp only [nodesOf_append, List.length_append, hNodes, List.length_nil] at hSplit
      omega

end F1r3Node.StateSync
