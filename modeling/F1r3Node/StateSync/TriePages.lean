import F1r3Node.StateSync.TrieWalk

/-! # The pages of a walk

A page holds the visits up to the node that uses up its size. When it has no node, the last leaf is taken for the node
that is put at the end of a page.
-/

namespace F1r3Node.StateSync

open Shared
open History
open Lib

variable {store : Bytes → Option Bytes} {root : Bytes}

@[simp] theorem visitedNodes_append (visits later : List Visit) :
    visitedNodes (visits ++ later) = visitedNodes visits ++ visitedNodes later :=
  List.filterMap_append

@[simp] theorem visitedLeaves_append (visits later : List Visit) :
    visitedLeaves (visits ++ later) = visitedLeaves visits ++ visitedLeaves later :=
  List.filterMap_append

@[simp] theorem visitedNodes_node (pre hash : Bytes) (rest : List Visit) :
    visitedNodes (.node pre hash :: rest) = hash :: visitedNodes rest := rfl

@[simp] theorem visitedNodes_leaf (value : Bytes) (rest : List Visit) :
    visitedNodes (.leaf value :: rest) = visitedNodes rest := rfl

@[simp] theorem visitedLeaves_node (pre hash : Bytes) (rest : List Visit) :
    visitedLeaves (.node pre hash :: rest) = visitedLeaves rest := rfl

@[simp] theorem visitedLeaves_leaf (value : Bytes) (rest : List Visit) :
    visitedLeaves (.leaf value :: rest) = value :: visitedLeaves rest := rfl

@[simp] theorem visitedNodes_nil : visitedNodes [] = [] := rfl

@[simp] theorem visitedLeaves_nil : visitedLeaves [] = [] := rfl

theorem cut_some {count : Nat} (hCount : 0 < count) {visits rest : List Visit} {q : Bytes}
    (h : (cut count visits).2 = some (q, rest)) :
    ∃ front hash, visits = front ++ .node q hash :: rest ∧ (cut count visits).1 = front ++ [.node q hash] ∧
      (visitedNodes front).length + 1 = count := by
  fun_induction cut count visits with
  | case1 => cases h
  | case2 count value rest' ih =>
    obtain ⟨front, hash, hVisits, hTaken, hLength⟩ := ih hCount h
    exact ⟨.leaf value :: front, hash, by rw [hVisits]; rfl, by rw [hTaken]; rfl, hLength⟩
  | case3 count pre hash rest' hOne =>
    obtain ⟨rfl, rfl⟩ := Prod.mk.inj (Option.some.inj h)
    exact ⟨[], hash, rfl, rfl, by rw [visitedNodes_nil, List.length_nil]; omega⟩
  | case4 count pre hash rest' hMore ih =>
    obtain ⟨front, hash', hVisits, hTaken, hLength⟩ := ih (by omega) h
    refine ⟨.node pre hash :: front, hash', by rw [hVisits]; rfl, by rw [hTaken]; rfl, ?_⟩
    rw [visitedNodes_node, List.length_cons]
    omega

theorem cut_none {count : Nat} (hCount : 0 < count) {visits : List Visit} (h : (cut count visits).2 = none) :
    (cut count visits).1 = visits ∧ (visitedNodes visits).length < count := by
  fun_induction cut count visits with
  | case1 => exact ⟨rfl, hCount⟩
  | case2 count value rest ih =>
    obtain ⟨hTaken, hLength⟩ := ih hCount h
    exact ⟨by rw [hTaken], hLength⟩
  | case3 count pre hash rest hOne => cases h
  | case4 count pre hash rest hMore ih =>
    obtain ⟨hTaken, hLength⟩ := ih (by omega) h
    refine ⟨by rw [hTaken], ?_⟩
    rw [visitedNodes_node, List.length_cons]
    omega

/-- The path behind the root at which the walk stopped; no path when it came to its end. -/
def stopPath (root : Bytes) : Option Bytes → Except ExportError NodePath
  | some q => constructLastPath q root
  | none => .ok []

def pageNodes (taken : List Visit) (path : NodePath) : List TrieNode :=
  (constructNodes (visitedLeaves taken) (visitedNodes taken)).dropLast ++
    match (visitedNodes taken).getLast? with
    | some key => constructLastNode key path
    | none => []

def pageAt (nodes : List TrieNode) : Except ExportError Page :=
  match lastPath nodes with
  | none => .error (.keyNotFound "RSpace Exporter: empty history for the requested start path")
  | some path => .ok ⟨keysOf false nodes, keysOf true nodes, path⟩

def pageOf (root : Bytes) (taken : List Visit) (stopped : Option Bytes) : Except ExportError Page := do
  pageAt (pageNodes taken (← stopPath root stopped))

theorem getHistoryAndData_eq (startPath : NodePath) (skip take : Int) :
    getHistoryAndData store startPath skip take =
      (do .ofExcept (pageAt (← tryTraverseHistory store startPath skip take))) := by
  rw [getHistoryAndData]
  refine congrArg _ (funext fun nodes => ?_)
  rw [pageAt]
  cases lastPath nodes <;> rfl

variable {taken : List Visit}

theorem getHistoryAndData_reaches {prefixVec : NodePath} {lastPrefix stopped : Option Bytes} {n : Nat}
    {data : ExportData} (hPrefix : createLastPrefix (prefixVec.map Prod.fst) = .ok lastPrefix)
    (hExport : Reaches (sequentialExport store pageSettings root lastPrefix 0 n) (.ok (data, stopped)))
    (hNodes : data.nodeKeys = visitedNodes taken) (hLeaves : data.leafValues = visitedLeaves taken)
    (hint : Option UInt8) :
    Reaches (getHistoryAndData store ((root, hint) :: prefixVec) 0 n) (pageOf root taken stopped) := by
  rw [getHistoryAndData_eq, pageOf]
  have hTraverse : ∀ path, stopPath root stopped = .ok path →
      Reaches (tryTraverseHistory store ((root, hint) :: prefixVec) 0 n) (.ok (pageNodes taken path)) := by
    intro path hPath
    rw [pageNodes, ← hNodes, ← hLeaves]
    cases stopped with
    | none =>
      obtain rfl := Except.ok.inj hPath
      exact .bind (.bind (.of_eq hPrefix) (.bind hExport (.pure _))) (.pure _)
    | some q => exact .bind (.bind (.of_eq hPrefix) (.bind hExport (.bind (.of_eq hPath) (.pure _)))) (.pure _)
  cases hStop : stopPath root stopped with
  | error e =>
    cases stopped with
    | none => cases hStop
    | some q => exact .bind_error (.bind_error (.bind (.of_eq hPrefix) (.bind hExport (.bind_error (.of_eq hStop)))))
  | ok path => exact .bind (hTraverse path hStop) (.ofExcept _)

theorem keysOf_append (leaf : Bool) (nodes nodes' : List TrieNode) :
    keysOf leaf (nodes ++ nodes') = keysOf leaf nodes ∪ keysOf leaf nodes' := by
  simp [keysOf]

theorem keysOf_map_self (leaf : Bool) (keys : List Bytes) (path : NodePath) :
    keysOf leaf (keys.map fun key => ⟨key, leaf, path⟩) = keys.toFinset := by
  simp [keysOf, List.filter_map, Function.comp_def]

theorem keysOf_map_other {leaf other : Bool} (h : (other == leaf) = false) (keys : List Bytes) (path : NodePath) :
    keysOf leaf (keys.map fun key => ⟨key, other, path⟩) = ∅ := by
  simp [keysOf, List.filter_map, Function.comp_def, h]

theorem pageOf_node {stopped : Option Bytes} {path : NodePath} {hash : Bytes}
    (hPath : stopPath root stopped = .ok path) (hLast : (visitedNodes taken).getLast? = some hash) :
    pageOf root taken stopped =
      .ok ⟨(visitedNodes taken).toFinset, (visitedLeaves taken).toFinset, path ++ [(hash, none)]⟩ := by
  obtain ⟨hashes, hNodes⟩ := List.getLast?_eq_some_iff.mp hLast
  have hPage : pageNodes taken path = (visitedLeaves taken).map (fun key => ⟨key, true, []⟩) ++
      (hashes.map (fun key => ⟨key, false, []⟩) ++ [hash].map fun key => ⟨key, false, path⟩) := by
    rw [pageNodes, hLast, hNodes, constructNodes, List.map_append, ← List.append_assoc, List.map_singleton,
      List.dropLast_concat, List.append_assoc]
    rfl
  have hHistory : keysOf false (pageNodes taken path) = (visitedNodes taken).toFinset := by
    rw [hPage, keysOf_append, keysOf_append, keysOf_map_self, keysOf_map_self, keysOf_map_other rfl, hNodes,
      List.toFinset_append, Finset.empty_union]
  have hData : keysOf true (pageNodes taken path) = (visitedLeaves taken).toFinset := by
    rw [hPage, keysOf_append, keysOf_append, keysOf_map_self, keysOf_map_other rfl, keysOf_map_other rfl,
      Finset.union_empty, Finset.union_empty]
  have hEnd : lastPath (pageNodes taken path) = some (path ++ [(hash, none)]) := by
    rw [hPage, ← List.append_assoc, lastPath, List.map_singleton, List.getLast?_concat]
    rfl
  rw [pageOf, hPath]
  change pageAt (pageNodes taken path) = _
  rw [pageAt, hEnd, hHistory, hData]

theorem pageOf_leaves (hNodes : visitedNodes taken = []) {value : Bytes}
    (hLast : (visitedLeaves taken).dropLast.getLast? = some value) :
    pageOf root taken none = .ok ⟨∅, (visitedLeaves taken).dropLast.toFinset, [(value, none)]⟩ := by
  have hPage : pageNodes taken [] = (visitedLeaves taken).dropLast.map fun key => ⟨key, true, []⟩ := by
    rw [pageNodes, hNodes, constructNodes, List.map_nil, List.append_nil, ← List.map_dropLast]
    exact List.append_nil _
  have hEnd : lastPath (pageNodes taken []) = some [(value, none)] := by
    rw [hPage, lastPath, List.getLast?_map, hLast]
    rfl
  rw [pageOf, stopPath]
  change pageAt (pageNodes taken []) = _
  rw [pageAt, hEnd, hPage, keysOf_map_self, keysOf_map_other rfl]

theorem pageOf_short (hNodes : visitedNodes taken = [])
    (hLeaves : (visitedLeaves taken).dropLast = []) : ∃ e, pageOf root taken none = .error e := by
  have hPage : pageNodes taken [] = [] := by
    rw [pageNodes, hNodes, constructNodes, List.map_nil, List.append_nil, ← List.map_dropLast, hLeaves]
    rfl
  refine ⟨.keyNotFound "RSpace Exporter: empty history for the requested start path", ?_⟩
  rw [pageOf, stopPath]
  change pageAt (pageNodes taken []) = _
  rw [hPage]
  rfl

/-- The walk of a trie. A root that is not in the store is read as the empty node and has no visit. -/
inductive IsTrie (store : Bytes → Option Bytes) (root : Bytes) : List Visit → Prop
  | absent (hAbsent : store root = none) : IsTrie store root []
  | held {node : Node} {below : List Visit} (hRoot : Holds store root node) (hWalk : Walk store [] node allBytes below) :
      IsTrie store root (.node [] root :: below)

theorem take_four (l : Bytes) (k : Nat) :
    l.take k ++ (l.drop k).take k ++ (l.drop (2 * k)).take k ++ (l.drop (3 * k)).take k = l.take (4 * k) := by
  have hTwo : l.take (2 * k) = l.take k ++ (l.drop k).take k := by rw [Nat.two_mul, List.take_add]
  have hThree : l.take (3 * k) = l.take (2 * k) ++ (l.drop (2 * k)).take k := by rw [Nat.succ_mul, List.take_add]
  have hFour : l.take (4 * k) = l.take (3 * k) ++ (l.drop (3 * k)).take k := by rw [Nat.succ_mul, List.take_add]
  rw [hFour, hThree, hTwo]

theorem createLastPrefix_constructLastPath {q : Bytes} {path : NodePath} (hPath : constructLastPath q root = .ok path)
    (last : Bytes × Option UInt8) :
    ∃ prefixVec, path ++ [last] = (root, none) :: prefixVec ∧
      createLastPrefix (prefixVec.map Prod.fst) = .ok (some q) := by
  rw [constructLastPath] at hPath
  split at hPath
  · cases hPath
  next hFits =>
    obtain rfl := Except.ok.inj hPath
    refine ⟨_, rfl, ?_⟩
    have hSize : (UInt8.ofNat q.length).toNat = q.length := by
      rw [UInt8.toNat_ofNat', Nat.mod_eq_of_lt]
      omega
    have hBlocks := take_four (q ++ List.replicate (128 - q.length) 0) 32
    change Except.ok (some (((q ++ List.replicate (128 - q.length) 0).take 32 ++ _ ++ _ ++ _).take _)) = _
    rw [hBlocks, hSize, List.take_take, Nat.min_eq_left (by omega), List.take_left]

theorem sequentialExport_reaches {settings : ExportDataSettings} {bytes : Bytes} {lastPrefix : Option Bytes} {n : Nat}
    {stack : List NodeData} {result : Except ExportError (ExportData × Option Bytes)}
    (hStore : store root = some bytes) (hn : 0 < n)
    (hStack : RoundsReach (fun p => .ofExcept (initNodePath store p)) ⟨root, [], lastPrefix.getD [], []⟩ (.ok stack))
    (hExport : RoundsReach (fun p => .ofExcept (exportStep store settings p))
      (startParams settings root bytes lastPrefix 0 n stack) result) :
    Reaches (sequentialExport store settings root lastPrefix 0 n) result := by
  have hSizes : ¬ ((0 : Int) = 0 ∧ (n : Int) = 0) := by omega
  rw [sequentialExport, if_neg hSizes, hStore]
  exact .bind hStack.loop hExport.loop

section

variable {node : Node} {below : List Visit} {n : Nat}

theorem getHistoryAndData_first (hRoot : Holds store root node) (hWalk : Walk store [] node allBytes below)
    (hn : 0 < n) :
    Reaches (getHistoryAndData store [(root, none)] 0 n) (pageOf root (cut n (.node [] root :: below)).1
      ((cut n (.node [] root :: below)).2.map Prod.fst)) := by
  obtain ⟨bytes, hStore, -⟩ := id hRoot
  have hPending : Pending store [⟨[], node, none⟩] (below ++ []) := .cons hWalk .nil
  have hLoop : ∃ data, RoundsReach (fun p => .ofExcept (exportStep store pageSettings p))
      ⟨[⟨[], node, none⟩], 0, (n - 1 : Nat), rootExportData pageSettings root bytes⟩
        (.ok (data, (cut n (.node [] root :: below)).2.map Prod.fst)) ∧
      Adds emptyExportData data (cut n (.node [] root :: below)).1 := by
    have hRootAdds : Adds emptyExportData (rootExportData pageSettings root bytes) [.node [] root] := ⟨rfl, rfl⟩
    rw [List.append_nil] at hPending
    obtain rfl | hMore : n = 1 ∨ 1 < n := by omega
    · exact ⟨_, .done (.of_eq (exportStep_ended [] _)), hRootAdds⟩
    · obtain ⟨data, hReach, hAdds⟩ := exportStep_page hPending (by omega : 0 < n - 1)
        (rootExportData pageSettings root bytes)
      rw [cut, if_neg (by omega)]
      exact ⟨data, hReach, hRootAdds.trans hAdds⟩
  obtain ⟨data, hReach, hAdds⟩ := hLoop
  have hCast : ((n - 1 : Nat) : Int) = (n : Int) - 1 := by omega
  rw [hCast] at hReach
  have hExport : Reaches (sequentialExport store pageSettings root none 0 n) (.ok (data, _)) :=
    sequentialExport_reaches hStore hn (.done (.of_eq (initNodePath_end hRoot []))) hReach
  exact getHistoryAndData_reaches rfl hExport hAdds.nodeKeys hAdds.leafValues none

theorem getHistoryAndData_next (hRoot : Holds store root node) (hWalk : Walk store [] node allBytes below)
    (hn : 0 < n) {before after : List Visit} {q hash : Bytes}
    (hSplit : .node [] root :: below = before ++ .node q hash :: after) {path : NodePath}
    (hPath : constructLastPath q root = .ok path) (last : Bytes × Option UInt8) :
    Reaches (getHistoryAndData store (path ++ [last]) 0 n) (pageOf root (cut n after).1
      ((cut n after).2.map Prod.fst)) := by
  have hBack : ∃ stack, RoundsReach (fun p => .ofExcept (initNodePath store p)) ⟨root, [], q, []⟩ (.ok stack) ∧
      Pending store stack after := by
    cases before with
    | nil =>
      obtain ⟨hNode, rfl⟩ := List.cons.inj hSplit
      obtain ⟨rfl, -⟩ := Visit.node.inj hNode
      have hPending : Pending store [⟨[], node, none⟩] (below ++ []) := .cons hWalk .nil
      rw [List.append_nil] at hPending
      exact ⟨_, .done (.of_eq (initNodePath_end hRoot [])), hPending⟩
    | cons first before =>
      obtain ⟨stack, hReach, hPending⟩ := initNodePath_reaches hRoot hWalk (List.cons.inj hSplit).2 .nil
      rw [List.append_nil] at hPending
      exact ⟨stack, hReach, hPending⟩
  obtain ⟨stack, hStack, hPending⟩ := hBack
  obtain ⟨data, hReach, hAdds⟩ := exportStep_page hPending hn emptyExportData
  obtain ⟨prefixVec, hStart, hPrefix⟩ := createLastPrefix_constructLastPath hPath last
  obtain ⟨bytes, hStore, -⟩ := hRoot
  rw [hStart]
  exact getHistoryAndData_reaches hPrefix (sequentialExport_reaches hStore hn hStack hReach) hAdds.nodeKeys
    hAdds.leafValues none

end

end F1r3Node.StateSync
