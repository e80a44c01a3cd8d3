import F1r3Node.StateSync.TriePages

/-! # Completeness of the state sync

The pages take the walk of the trie to pieces. When the number of nodes is a multiple of the page size, the last piece
has leaves only and loses one of them, or is refused.
-/

namespace F1r3Node.StateSync

open Shared
open History
open Lib

variable {store : Bytes → Option Bytes} {root : Bytes} {visits : List Visit} {n : Nat}

inductive NodeOf (store : Bytes → Option Bytes) (root : Bytes) : Bytes → Prop
  | root {node : Node} (hRoot : Holds store root node) : NodeOf store root root
  | child {hash p ptr : Bytes} {node : Node} {i : UInt8} (hParent : NodeOf store root hash)
      (hNode : Holds store hash node) (hItem : node i = .nodePtr p ptr) : NodeOf store root ptr

def LeafOf (store : Bytes → Option Bytes) (root value : Bytes) : Prop :=
  ∃ hash node i p, NodeOf store root hash ∧ Holds store hash node ∧ node i = .leaf p value

/-- Every node below the hash is in the store, and no path goes on for ever. -/
inductive FiniteBelow (store : Bytes → Option Bytes) : Bytes → Prop
  | intro {hash : Bytes} {node : Node} (hNode : Holds store hash node)
      (hChildren : ∀ i p ptr, node i = .nodePtr p ptr → FiniteBelow store ptr) : FiniteBelow store hash

def FiniteTrie (store : Bytes → Option Bytes) (root : Bytes) : Prop := store root = none ∨ FiniteBelow store root

variable {hash : Bytes} {node : Node}

theorem Holds.unique {node' : Node} (h : Holds store hash node) (h' : Holds store hash node') :
    node = node' := by
  obtain ⟨bytes, hStore, hDecode⟩ := h
  obtain ⟨bytes', hStore', hDecode'⟩ := h'
  obtain rfl := Option.some.inj (hStore.symm.trans hStore')
  exact Except.ok.inj (hDecode.symm.trans hDecode')

theorem exists_walk (hChildren : ∀ i p ptr, node i = .nodePtr p ptr → ∃ child, Holds store ptr child ∧
      ∀ pre, ∃ inner, Walk store pre child allBytes inner) (pre : Bytes) (indices : List UInt8) :
    ∃ visits, Walk store pre node indices visits := by
  induction indices with
  | nil => exact ⟨[], .done⟩
  | cons i rest ih =>
    obtain ⟨later, hLater⟩ := ih
    cases hItem : node i with
    | emptyItem => exact ⟨later, .empty hItem hLater⟩
    | leaf p value => exact ⟨_, .leaf hItem hLater⟩
    | nodePtr p ptr =>
      obtain ⟨child, hChild, hInner⟩ := hChildren i p ptr hItem
      obtain ⟨inner, hWalk⟩ := hInner (pre ++ i :: p)
      exact ⟨_, .sub hItem hChild hWalk hLater⟩

theorem FiniteBelow.exists_walk (h : FiniteBelow store hash) :
    ∃ node, Holds store hash node ∧ ∀ pre, ∃ visits, Walk store pre node allBytes visits := by
  induction h with
  | @intro hash node hNode hChildren ih => exact ⟨node, hNode, fun pre => StateSync.exists_walk ih pre allBytes⟩

theorem FiniteTrie.exists_isTrie (h : FiniteTrie store root) : ∃ visits, IsTrie store root visits := by
  obtain hAbsent | hBelow := h
  · exact ⟨[], .absent hAbsent⟩
  · obtain ⟨node, hRoot, hWalks⟩ := hBelow.exists_walk
    obtain ⟨below, hWalk⟩ := hWalks []
    exact ⟨_, .held hRoot hWalk⟩

variable {pre : Bytes} {indices : List UInt8}

theorem Walk.sound (h : Walk store pre node indices visits)
    (hHash : NodeOf store root hash) (hNode : Holds store hash node) :
    (∀ h ∈ visitedNodes visits, NodeOf store root h) ∧ ∀ v ∈ visitedLeaves visits, LeafOf store root v := by
  induction h generalizing hash with
  | done => simp
  | empty hItem hRest ih => exact ih hHash hNode
  | @leaf pre node i rest visits p value hItem hRest ih =>
    obtain ⟨hNodes, hLeaves⟩ := ih hHash hNode
    have hValue : LeafOf store root value := ⟨hash, node, i, p, hHash, hNode, hItem⟩
    simpa [hValue] using And.intro hNodes hLeaves
  | @sub pre node child i rest inner visits p ptr hItem hChild hInner hRest ihInner ih =>
    obtain ⟨hNodes, hLeaves⟩ := ih hHash hNode
    have hPtr : NodeOf store root ptr := .child hHash hNode hItem
    obtain ⟨hInnerNodes, hInnerLeaves⟩ := ihInner hPtr hChild
    simp only [visitedNodes_node, visitedLeaves_node, visitedNodes_append, visitedLeaves_append, List.mem_cons,
      List.mem_append]
    refine ⟨?_, fun v hv => hv.elim (hInnerLeaves v) (hLeaves v)⟩
    rintro h (rfl | hIn | hLater)
    · exact hPtr
    · exact hInnerNodes h hIn
    · exact hNodes h hLater

theorem Walk.visits_item (h : Walk store pre node indices visits) {i : UInt8} (hi : i ∈ indices) :
    (∀ p ptr, node i = .nodePtr p ptr → ptr ∈ visitedNodes visits) ∧
      ∀ p value, node i = .leaf p value → value ∈ visitedLeaves visits := by
  induction h with
  | done => cases hi
  | @empty pre node j rest visits hItem hRest ih =>
    obtain rfl | hMem := List.mem_cons.mp hi
    · simp [hItem]
    · exact ih hMem
  | @leaf pre node j rest visits p value hItem hRest ih =>
    obtain rfl | hMem := List.mem_cons.mp hi
    · simp [hItem]
    · simp only [visitedNodes_leaf, visitedLeaves_leaf, List.mem_cons]
      exact ⟨(ih hMem).1, fun p v hv => .inr ((ih hMem).2 p v hv)⟩
  | @sub pre node child j rest inner visits p ptr hItem hChild hInner hRest ihInner ih =>
    simp only [visitedNodes_node, visitedLeaves_node, visitedNodes_append, visitedLeaves_append, List.mem_cons,
      List.mem_append]
    obtain rfl | hMem := List.mem_cons.mp hi
    · simp [hItem]
    · exact ⟨fun p t ht => .inr (.inr ((ih hMem).1 p t ht)), fun p v hv => .inr ((ih hMem).2 p v hv)⟩

theorem Walk.exists_below (h : Walk store pre node indices visits) (hMem : hash ∈ visitedNodes visits) :
    ∃ pre' node' below, Holds store hash node' ∧ Walk store pre' node' allBytes below ∧ below ⊆ visits := by
  induction h with
  | done => cases hMem
  | empty hItem hRest ih => exact ih hMem
  | leaf hItem hRest ih =>
    obtain ⟨pre', node', below, hNode, hWalk, hSubset⟩ := ih hMem
    exact ⟨pre', node', below, hNode, hWalk, List.subset_cons_of_subset _ hSubset⟩
  | @sub pre node child i rest inner visits p ptr hItem hChild hInner hRest ihInner ih =>
    simp only [visitedNodes_node, visitedNodes_append, List.mem_cons, List.mem_append] at hMem
    obtain rfl | hIn | hLater := hMem
    · exact ⟨_, child, inner, hChild, hInner, List.subset_cons_of_subset _ (List.subset_append_left _ _)⟩
    · obtain ⟨pre', node', below, hNode, hWalk, hSubset⟩ := ihInner hIn
      refine ⟨pre', node', below, hNode, hWalk, List.subset_cons_of_subset _ ?_⟩
      exact List.subset_append_of_subset_left _ hSubset
    · obtain ⟨pre', node', below, hNode, hWalk, hSubset⟩ := ih hLater
      refine ⟨pre', node', below, hNode, hWalk, List.subset_cons_of_subset _ ?_⟩
      exact List.subset_append_of_subset_right _ hSubset

theorem visitedNodes_subset {visits later : List Visit} (h : visits ⊆ later) :
    visitedNodes visits ⊆ visitedNodes later := List.filterMap_subset _ h

theorem visitedLeaves_subset {visits later : List Visit} (h : visits ⊆ later) :
    visitedLeaves visits ⊆ visitedLeaves later := List.filterMap_subset _ h

theorem IsTrie.exists_below (h : IsTrie store root visits) (hHash : NodeOf store root hash) :
    hash ∈ visitedNodes visits ∧
      ∃ pre node below, Holds store hash node ∧ Walk store pre node allBytes below ∧ below ⊆ visits := by
  cases h with
  | absent hAbsent =>
    exfalso
    induction hHash with
    | root hRoot =>
      obtain ⟨bytes, hStore, -⟩ := hRoot
      exact Option.some_ne_none _ (hStore.symm.trans hAbsent)
    | child hParent hNode hItem ih => exact ih
  | @held top below hRoot hWalk =>
    have hBelow : below ⊆ .node [] root :: below := List.subset_cons_self _ _
    induction hHash with
    | root => exact ⟨List.mem_cons_self, [], top, below, hRoot, hWalk, hBelow⟩
    | child hParent hNode hItem ih =>
      obtain ⟨-, pre, node, inner, hHolds, hInner, hSubset⟩ := ih
      obtain rfl := hHolds.unique hNode
      have hMem := visitedNodes_subset hSubset ((hInner.visits_item (mem_allBytes _)).1 _ _ hItem)
      refine ⟨hMem, ?_⟩
      obtain rfl | hLater := List.mem_cons.mp hMem
      · exact ⟨[], top, below, hRoot, hWalk, hBelow⟩
      · obtain ⟨pre', node', below', hNode', hWalk', hSubset'⟩ := hWalk.exists_below hLater
        exact ⟨pre', node', below', hNode', hWalk', List.Subset.trans hSubset' hBelow⟩

theorem IsTrie.mem_visitedNodes (h : IsTrie store root visits) (hash : Bytes) :
    hash ∈ visitedNodes visits ↔ NodeOf store root hash := by
  refine ⟨fun hMem => ?_, fun hHash => (h.exists_below hHash).1⟩
  cases h with
  | absent => cases hMem
  | held hRoot hWalk =>
    obtain rfl | hBelow := List.mem_cons.mp hMem
    · exact .root hRoot
    · exact (hWalk.sound (.root hRoot) hRoot).1 hash hBelow

theorem IsTrie.mem_visitedLeaves (h : IsTrie store root visits) (value : Bytes) :
    value ∈ visitedLeaves visits ↔ LeafOf store root value := by
  constructor
  · intro hMem
    cases h with
    | absent => cases hMem
    | held hRoot hWalk => exact (hWalk.sound (.root hRoot) hRoot).2 value hMem
  · rintro ⟨hash, node, i, p, hHash, hNode, hItem⟩
    obtain ⟨-, pre, node', below, hHolds, hWalk, hSubset⟩ := h.exists_below hHash
    obtain rfl := hHolds.unique hNode
    exact visitedLeaves_subset hSubset ((hWalk.visits_item (mem_allBytes i)).2 p value hItem)

def Fits (n : Nat) (visits : List Visit) : Prop :=
  ∀ front q hash rest, visits = front ++ .node q hash :: rest → n ∣ (visitedNodes front).length + 1 → q.length ≤ 128

/-- The last leaf is not the only one behind the last node, and its value stands before it as well. -/
def LastLeafRepeated (visits : List Visit) : Prop :=
  ∃ before q hash after value, visits = before ++ .node q hash :: (after ++ [.leaf value]) ∧
    visitedNodes after = [] ∧ after ≠ [] ∧ value ∈ visitedLeaves (before ++ after)

def allKeys (visits : List Visit) : Finset Bytes × Finset Bytes :=
  ((visitedNodes visits).toFinset, (visitedLeaves visits).toFinset)

variable {rest : List Visit} {q : Bytes}

theorem fits_append {front : List Visit} (hLength : (visitedNodes front).length + 1 = n) :
    Fits n (front ++ .node q hash :: rest) ↔ q.length ≤ 128 ∧ Fits n rest := by
  have hCount : ∀ front', (visitedNodes (front ++ .node q hash :: front')).length + 1 =
      n + ((visitedNodes front').length + 1) := by
    intro front'
    rw [visitedNodes_append, visitedNodes_node, List.length_append, List.length_cons]
    omega
  constructor
  · intro h
    refine ⟨h front q hash rest rfl (by rw [hLength]), ?_⟩
    rintro front' q' hash' rest' rfl hDvd
    refine h (front ++ .node q hash :: front') q' hash' rest' (by simp) ?_
    rw [hCount]
    exact Nat.dvd_add (Nat.dvd_refl n) hDvd
  · rintro ⟨hq, hRest⟩ front' q' hash' rest' hSplit hDvd
    obtain ⟨extra, rfl, hRight⟩ | ⟨extra, rfl, hRight⟩ := List.append_eq_append_iff.mp hSplit
    · cases extra with
      | nil =>
        obtain ⟨hNode, -⟩ := List.cons.inj hRight
        obtain ⟨rfl, -⟩ := Visit.node.inj hNode
        exact hq
      | cons visit extra =>
        obtain ⟨rfl, hTail⟩ := List.cons.inj hRight
        rw [hCount] at hDvd
        exact hRest extra q' hash' rest' hTail ((Nat.dvd_add_right (Nat.dvd_refl n)).mp hDvd)
    · cases extra with
      | nil =>
        obtain ⟨hNode, -⟩ := List.cons.inj hRight
        obtain ⟨rfl, -⟩ := Visit.node.inj hNode
        exact hq
      | cons visit extra =>
        -- such a node comes before the page is full
        obtain ⟨rfl, -⟩ := List.cons.inj hRight
        have hLe := Nat.le_of_dvd (Nat.succ_pos _) hDvd
        rw [visitedNodes_append, visitedNodes_node, List.length_append, List.length_cons] at hLength
        omega

theorem fits_of_lt (h : (visitedNodes visits).length < n) : Fits n visits := by
  rintro front q hash rest rfl hDvd
  have hLe := Nat.le_of_dvd (Nat.succ_pos _) hDvd
  rw [visitedNodes_append, visitedNodes_node, List.length_append, List.length_cons] at h
  omega

theorem visitedNodes_map_leaf (values : List Bytes) : visitedNodes (values.map .leaf) = [] := by
  induction values with
  | nil => rfl
  | cons value values ih => rw [List.map_cons, visitedNodes_leaf, ih]

theorem visitedLeaves_map_leaf (values : List Bytes) : visitedLeaves (values.map .leaf) = values := by
  induction values with
  | nil => rfl
  | cons value values ih => rw [List.map_cons, visitedLeaves_leaf, ih]

theorem eq_map_leaf (h : visitedNodes visits = []) : visits = (visitedLeaves visits).map .leaf := by
  induction visits with
  | nil => rfl
  | cons visit rest ih =>
    cases visit with
    | node q hash => cases h
    | leaf value =>
      rw [visitedLeaves_leaf, List.map_cons]
      exact congrArg _ (ih h)

variable {before : List Visit}

theorem last_node_unique {before' rest' : List Visit} {q' hash' : Bytes}
    (hSplit : before ++ .node q hash :: rest = before' ++ .node q' hash' :: rest') (hRest : visitedNodes rest = [])
    (hRest' : visitedNodes rest' = []) : before = before' ∧ rest = rest' := by
  obtain ⟨extra, rfl, hRight⟩ | ⟨extra, rfl, hRight⟩ := List.append_eq_append_iff.mp hSplit
  · cases extra with
    | nil => exact ⟨(List.append_nil _).symm, (List.cons.inj hRight).2⟩
    | cons visit extra =>
      rw [List.cons_append] at hRight
      rw [(List.cons.inj hRight).2] at hRest
      simp at hRest
  · cases extra with
    | nil => exact ⟨List.append_nil _, (List.cons.inj hRight).2.symm⟩
    | cons visit extra =>
      rw [List.cons_append] at hRight
      rw [(List.cons.inj hRight).2] at hRest'
      simp at hRest'

theorem lastLeafRepeated_iff (hRest : visitedNodes rest = []) :
    LastLeafRepeated (before ++ .node q hash :: rest) ↔
      ∃ values value, visitedLeaves rest = values ++ [value] ∧ values ≠ [] ∧
        value ∈ visitedLeaves before ++ values := by
  constructor
  · rintro ⟨before', q', hash', after, value, hSplit, hAfter, hSome, hMem⟩
    obtain ⟨rfl, rfl⟩ := last_node_unique hSplit hRest (by simp [hAfter])
    rw [visitedLeaves_append] at hMem
    refine ⟨visitedLeaves after, value, by simp, fun hNil => hSome ?_, hMem⟩
    rw [eq_map_leaf hAfter, hNil, List.map_nil]
  · rintro ⟨values, value, hLeaves, hSome, hMem⟩
    refine ⟨before, q, hash, values.map .leaf, value, ?_, visitedNodes_map_leaf values, by simpa using hSome, ?_⟩
    · rw [eq_map_leaf hRest, hLeaves, List.map_append, List.map_singleton]
    · rw [visitedLeaves_append, visitedLeaves_map_leaf]
      exact hMem

theorem allKeys_append (visits later : List Visit) :
    allKeys (visits ++ later) =
      ((allKeys visits).1 ∪ (visitedNodes later).toFinset, (allKeys visits).2 ∪ (visitedLeaves later).toFinset) := by
  rw [allKeys, visitedNodes_append, visitedLeaves_append, List.toFinset_append, List.toFinset_append]
  rfl

theorem allKeys_without (done : List Visit) {values : List Bytes} {lost : Bytes} (hRest : visitedNodes rest = [])
    (hLeaves : visitedLeaves rest = values ++ [lost]) :
    ((allKeys done).1 ∪ ∅, (allKeys done).2 ∪ values.toFinset) = allKeys (done ++ rest) ↔
      lost ∈ visitedLeaves done ++ values := by
  rw [allKeys_append, hRest, hLeaves, List.toFinset_append, ← Finset.union_assoc, Prod.mk.injEq, Finset.left_eq_union]
  simp [allKeys]

section

variable {s : SyncState} {page : Page}

theorem syncStep_last (hPage : Reaches (getHistoryAndData store s.path 0 n) (.ok page))
    (hLast : page.lastPath.length = 1) :
    Reaches (syncStep store n s) (.ok (.inr (s.history ∪ page.historyKeys, s.data ∪ page.dataKeys))) := by
  refine .bind hPage ?_
  simp only [hLast, if_true]
  exact .pure _

theorem syncStep_more (hPage : Reaches (getHistoryAndData store s.path 0 n) (.ok page))
    (hMore : page.lastPath.length ≠ 1) :
    Reaches (syncStep store n s)
      (.ok (.inl ⟨page.lastPath, s.history ∪ page.historyKeys, s.data ∪ page.dataKeys⟩)) := by
  refine .bind hPage ?_
  simp only [hMore, if_false]
  exact .pure _

theorem syncStep_error {e : ExportError} (hPage : Reaches (getHistoryAndData store s.path 0 n) (.error e)) :
    Reaches (syncStep store n s) (.error e) := .bind_error hPage

end

theorem constructLastPath_ok (root : Bytes) (hq : q.length ≤ 128) :
    ∃ path, constructLastPath q root = .ok path ∧ path.length = 6 := by
  rw [constructLastPath, if_neg (by omega)]
  exact ⟨_, rfl, rfl⟩

variable {path : NodePath}

theorem syncStep_lastNode {done : List Visit} (hSome : visitedNodes rest ≠ [])
    (hPage : Reaches (getHistoryAndData store path 0 n) (pageOf root rest none)) :
    RoundsReach (syncStep store n) ⟨path, (allKeys done).1, (allKeys done).2⟩ (.ok (allKeys (done ++ rest))) := by
  obtain ⟨hash, hLast⟩ := Option.ne_none_iff_exists'.mp (mt List.getLast?_eq_none_iff.mp hSome)
  rw [pageOf_node rfl hLast] at hPage
  have hStep := syncStep_last (s := ⟨path, (allKeys done).1, (allKeys done).2⟩) hPage rfl
  rw [allKeys_append]
  exact .done hStep

theorem syncStep_lastLeaves
    (hRest : visitedNodes rest = []) (hPage : Reaches (getHistoryAndData store path 0 n) (pageOf root rest none)) :
    ∃ r, RoundsReach (syncStep store n)
        ⟨path, (allKeys (before ++ [.node q hash])).1, (allKeys (before ++ [.node q hash])).2⟩ r ∧
      (r = .ok (allKeys (before ++ [.node q hash] ++ rest)) ↔ LastLeafRepeated (before ++ .node q hash :: rest)) := by
  rw [lastLeafRepeated_iff hRest]
  cases hLast : (visitedLeaves rest).dropLast.getLast? with
  | none =>
    have hShort := List.getLast?_eq_none_iff.mp hLast
    obtain ⟨e, hError⟩ : ∃ e, pageOf root rest none = .error e := pageOf_short hRest hShort
    rw [hError] at hPage
    refine ⟨.error e, .error (syncStep_error hPage), nofun, ?_⟩
    rintro ⟨values, value, hLeaves, hSome, -⟩
    rw [hLeaves, List.dropLast_concat] at hShort
    exact absurd hShort hSome
  | some value =>
    rw [pageOf_leaves hRest hLast] at hPage
    refine ⟨_, .done (syncStep_last hPage rfl), ?_⟩
    have hNonempty : visitedLeaves rest ≠ [] := by
      rintro hNil
      rw [hNil] at hLast
      cases hLast
    obtain ⟨values, lost, hLeaves⟩ : ∃ values lost, visitedLeaves rest = values ++ [lost] :=
      ⟨_, _, (List.dropLast_append_getLast hNonempty).symm⟩
    rw [hLeaves, List.dropLast_concat] at hLast ⊢
    have hSome : values ≠ [] := by
      rintro rfl
      cases hLast
    have hLost : (∃ values' value, values ++ [lost] = values' ++ [value] ∧ values' ≠ [] ∧
        value ∈ visitedLeaves before ++ values') ↔ lost ∈ visitedLeaves before ++ values := by
      constructor
      · rintro ⟨values', value, hSame, -, hMem⟩
        obtain ⟨rfl, hValue⟩ := List.append_inj' hSame rfl
        obtain rfl := List.singleton_inj.mp hValue
        exact hMem
      · exact fun hMem => ⟨values, lost, rfl, hSome, hMem⟩
    rw [hLost, Except.ok.injEq]
    have hWithout := allKeys_without (before ++ [.node q hash]) hRest hLeaves
    rw [visitedLeaves_append, visitedLeaves_node, visitedLeaves_nil, List.append_nil] at hWithout
    exact hWithout

theorem syncStep_run {below : List Visit} (hRoot : Holds store root node)
    (hWalk : Walk store [] node allBytes below) (hn : 0 < n) (done : List Visit)
    (hSplit : .node [] root :: below = done ++ rest)
    (hPage : Reaches (getHistoryAndData store path 0 n) (pageOf root (cut n rest).1 ((cut n rest).2.map Prod.fst)))
    (hDone : visitedNodes rest = [] → ∃ before q hash, done = before ++ [.node q hash]) :
    ∃ r, RoundsReach (syncStep store n) ⟨path, (allKeys done).1, (allKeys done).2⟩ r ∧
      (r = .ok (allKeys (done ++ rest)) ↔
        Fits n rest ∧ (¬ n ∣ (visitedNodes rest).length ∨ LastLeafRepeated (done ++ rest))) := by
  generalize hLength : rest.length = length
  induction length using Nat.strong_induction_on generalizing done rest path with
  | _ length ih =>
    cases hCut : (cut n rest).2 with
    | none =>
      obtain ⟨hTaken, hFew⟩ := cut_none hn hCut
      rw [hTaken, hCut] at hPage
      by_cases hNodes : visitedNodes rest = []
      · obtain ⟨before, q, hash, rfl⟩ := hDone hNodes
        obtain ⟨r, hReach, hIff⟩ := syncStep_lastLeaves hNodes hPage
        refine ⟨r, hReach, hIff.trans ?_⟩
        simp [fits_of_lt hFew, hNodes]
      · refine ⟨_, syncStep_lastNode hNodes hPage, iff_of_true rfl ⟨fits_of_lt hFew, .inl ?_⟩⟩
        have hPos := List.length_pos_iff.mpr hNodes
        intro hDvd
        have hLe := Nat.le_of_dvd hPos hDvd
        omega
    | some stop =>
      obtain ⟨q, later⟩ := stop
      obtain ⟨front, hash, rfl, hTaken, hCount⟩ := cut_some hn hCut
      rw [hTaken, hCut, Option.map_some] at hPage
      by_cases hq : q.length ≤ 128
      · obtain ⟨path', hPath, hLong⟩ := constructLastPath_ok root hq
        have hLast : (visitedNodes (front ++ [.node q hash])).getLast? = some hash := by simp
        have hPageOf : pageOf root (front ++ [.node q hash]) (some q) = .ok _ := pageOf_node hPath hLast
        rw [hPageOf] at hPage
        have hMore : (path' ++ [(hash, none)]).length ≠ 1 := by
          rw [List.length_append, hLong, List.length_singleton]
          decide
        have hStep := syncStep_more (s := ⟨path, (allKeys done).1, (allKeys done).2⟩) hPage hMore
        have hDone' : done ++ front ++ .node q hash :: later = (done ++ (front ++ [.node q hash])) ++ later := by simp
        have hSplit' : .node [] root :: below = done ++ front ++ .node q hash :: later := by rw [hSplit]; simp
        have hPage' := getHistoryAndData_next hRoot hWalk hn hSplit' hPath (hash, none)
        obtain ⟨r, hReach, hIff⟩ := ih later.length (by rw [← hLength]; simp only [List.length_cons, List.length_append]; omega) _ (hSplit'.trans hDone') hPage'
          (fun _ => ⟨done ++ front, q, hash, by simp⟩) rfl
        rw [allKeys_append] at hReach
        refine ⟨r, .next hStep hReach, ?_⟩
        have hNodes : (visitedNodes (front ++ .node q hash :: later)).length = n + (visitedNodes later).length := by
          rw [visitedNodes_append, visitedNodes_node, List.length_append, List.length_cons]
          omega
        rw [fits_append hCount, ← List.append_assoc, hDone', hIff, hNodes, Nat.dvd_add_right (Nat.dvd_refl n)]
        simp only [hq, true_and]
      · have hPanics : ∃ e, pageOf root (front ++ [.node q hash]) (some q) = .error e := by
          rw [pageOf, stopPath, constructLastPath, if_pos (by omega)]
          exact ⟨_, rfl⟩
        obtain ⟨e, hError⟩ := hPanics
        rw [hError] at hPage
        refine ⟨.error e, .error (syncStep_error hPage), iff_of_false (by rintro ⟨⟩) fun hGood => ?_⟩
        exact hq ((fits_append hCount).mp hGood.1).1

/-- The pages end without an error, and their keys are the nodes and the leaves of the trie. -/
def Complete (store : Bytes → Option Bytes) (root : Bytes) (n : Nat) : Prop :=
  ∃ fuel history data, (syncState store root n).within fuel = some (.ok (history, data)) ∧
    (∀ hash, hash ∈ history ↔ NodeOf store root hash) ∧ ∀ value, value ∈ data ↔ LeafOf store root value

theorem getHistoryAndData_absent (hAbsent : store root = none) (hn : 0 < n) :
    ∃ e, Reaches (getHistoryAndData store [(root, none)] 0 n) (.error e) := by
  have hSizes : ¬ ((0 : Int) = 0 ∧ (n : Int) = 0) := by omega
  have hExport : Reaches (sequentialExport store pageSettings root none 0 n) (.ok (emptyExportData, none)) := by
    rw [sequentialExport, if_neg hSizes, hAbsent]
    exact .pure _
  obtain ⟨e, hError⟩ : ∃ e, pageOf root [] none = .error e := pageOf_short rfl rfl
  refine ⟨e, ?_⟩
  rw [← hError]
  exact getHistoryAndData_reaches rfl hExport rfl rfl none

theorem not_lastLeafRepeated_nil : ¬ LastLeafRepeated [] := by
  rintro ⟨before, q, hash, after, value, hSplit, -⟩
  simp at hSplit

theorem syncState_reaches (hTrie : IsTrie store root visits) (hn : 0 < n) :
    ∃ r, Reaches (syncState store root n) r ∧
      (r = .ok (allKeys visits) ↔ Fits n visits ∧ (¬ n ∣ (visitedNodes visits).length ∨ LastLeafRepeated visits)) := by
  cases hTrie with
  | absent hAbsent =>
    obtain ⟨e, hPage⟩ := getHistoryAndData_absent hAbsent hn
    have hStep : Reaches (syncStep store n ⟨[(root, none)], ∅, ∅⟩) (.error e) := syncStep_error hPage
    refine ⟨.error e, (RoundsReach.error hStep).loop, nofun, ?_⟩
    rintro ⟨-, hNotDvd | hRepeated⟩
    · exact absurd (Nat.dvd_zero n) hNotDvd
    · exact absurd hRepeated not_lastLeafRepeated_nil
  | held hRoot hWalk =>
    obtain ⟨r, hReach, hIff⟩ := syncStep_run hRoot hWalk hn [] rfl (getHistoryAndData_first hRoot hWalk hn)
      nofun
    exact ⟨r, hReach.loop, hIff⟩

theorem complete_iff (hTrie : IsTrie store root visits) {r : Except ExportError (Finset Bytes × Finset Bytes)}
    (hReach : Reaches (syncState store root n) r) : Complete store root n ↔ r = .ok (allKeys visits) := by
  constructor
  · rintro ⟨fuel, history, data, hEnd, hHistory, hData⟩
    rw [← hReach.unique hEnd, Except.ok.injEq, allKeys, Prod.mk.injEq]
    refine ⟨Finset.ext fun hash => ?_, Finset.ext fun value => ?_⟩
    · rw [hHistory, List.mem_toFinset, hTrie.mem_visitedNodes]
    · rw [hData, List.mem_toFinset, hTrie.mem_visitedLeaves]
  · rintro rfl
    obtain ⟨bound, hBound⟩ := hReach.enough
    refine ⟨bound, _, _, hBound bound le_rfl, fun hash => ?_, fun value => ?_⟩
    · rw [List.mem_toFinset, hTrie.mem_visitedNodes]
    · rw [List.mem_toFinset, hTrie.mem_visitedLeaves]

/-- The sync is complete exactly when every page can be resumed and the last page has a node, up to a leaf whose loss
is not seen. -/
theorem syncState_complete_iff (hTrie : FiniteTrie store root) (hn : 0 < n) :
    (∃ visits, IsTrie store root visits) ∧ ∀ visits, IsTrie store root visits → (Complete store root n ↔
      Fits n visits ∧ (¬ n ∣ (visitedNodes visits).length ∨ LastLeafRepeated visits)) := by
  refine ⟨hTrie.exists_isTrie, fun visits hVisits => ?_⟩
  obtain ⟨r, hReach, hIff⟩ := syncState_reaches hVisits hn
  exact (complete_iff hVisits hReach).trans hIff

/-! A trie of one node with two leaves. -/

def firstValue : Bytes := List.replicate 32 1

def secondValue : Bytes := List.replicate 32 2

def twoLeaves : Node := fun i =>
  if i = 0 then .leaf [] firstValue else if i = 1 then .leaf [] secondValue else .emptyItem

def twoLeavesRoot : Bytes := List.replicate 32 7

def twoLeavesStore : Bytes → Option Bytes := fun key => if key = twoLeavesRoot then some twoLeaves.bytes else none

theorem twoLeaves_wellFormed : twoLeaves.WellFormed := by
  intro i
  rw [twoLeaves]
  split
  · exact ⟨by decide, by decide⟩
  · split
    · exact ⟨by decide, by decide⟩
    · trivial

theorem allBytes_eq_cons : allBytes = 0 :: 1 :: allBytes.drop 2 := rfl

theorem twoLeaves_empty : ∀ i ∈ allBytes.drop 2, twoLeaves i = .emptyItem := by
  intro i hi
  have hDistinct := nodup_allBytes
  rw [allBytes_eq_cons, List.nodup_cons, List.nodup_cons] at hDistinct
  have hFirst : i ≠ 0 := fun h => hDistinct.1 (List.mem_cons_of_mem _ (h ▸ hi))
  have hSecond : i ≠ 1 := fun h => hDistinct.2.1 (h ▸ hi)
  rw [twoLeaves, if_neg hFirst, if_neg hSecond]

theorem twoLeaves_holds : Holds twoLeavesStore twoLeavesRoot twoLeaves := by
  refine ⟨twoLeaves.bytes, if_pos rfl, ?_⟩
  rw [decodeNode, tryDecode_bytes twoLeaves_wellFormed]
  rfl

theorem Walk.empties (h : ∀ i ∈ indices, node i = .emptyItem) :
    Walk store pre node indices [] := by
  induction indices with
  | nil => exact .done
  | cons i rest ih =>
    exact .empty (h i List.mem_cons_self) (ih fun j hj => h j (List.mem_cons_of_mem _ hj))

theorem twoLeaves_isTrie : IsTrie twoLeavesStore twoLeavesRoot
    [.node [] twoLeavesRoot, .leaf firstValue, .leaf secondValue] := by
  refine .held twoLeaves_holds ?_
  rw [allBytes_eq_cons]
  exact .leaf rfl (.leaf rfl (.empties twoLeaves_empty))

theorem twoLeaves_finite : FiniteTrie twoLeavesStore twoLeavesRoot := by
  refine .inr (.intro twoLeaves_holds fun i p ptr hItem => ?_)
  rw [twoLeaves] at hItem
  split at hItem
  · cases hItem
  · split at hItem <;> cases hItem

theorem twoLeaves_complete : FiniteTrie twoLeavesStore twoLeavesRoot ∧ Complete twoLeavesStore twoLeavesRoot 2 := by
  refine ⟨twoLeaves_finite, ?_⟩
  have hIff := (syncState_complete_iff twoLeaves_finite (by decide : 0 < 2)).2 _ twoLeaves_isTrie
  exact hIff.mpr ⟨fits_of_lt (by decide), .inl (by decide)⟩

theorem tryTraverseHistory_within {hint : Option UInt8} {prefixVec : NodePath} {lastPrefix stopped : Option Bytes}
    {data : ExportData} {fuel : Nat} (hPrefix : createLastPrefix (prefixVec.map Prod.fst) = .ok lastPrefix)
    (hExport : (sequentialExport store pageSettings root lastPrefix 0 n).within fuel = some (.ok (data, stopped)))
    (hPath : stopPath root stopped = .ok path) :
    (tryTraverseHistory store ((root, hint) :: prefixVec) 0 n).within fuel =
      some (.ok ((constructNodes data.leafValues data.nodeKeys).dropLast ++
        match data.nodeKeys.getLast? with
        | some key => constructLastNode key path
        | none => [])) := by
  have hFirst : (Fuelled.ofExcept (createLastPrefix (prefixVec.map Prod.fst))).within fuel = some (.ok lastPrefix) :=
    congrArg some hPrefix
  cases stopped with
  | none =>
    obtain rfl := Except.ok.inj hPath
    exact .trans (Fuelled.within_bind_of_ok (.trans (Fuelled.within_bind_of_ok hFirst)
      (.trans (Fuelled.within_bind_of_ok hExport) rfl))) rfl
  | some q =>
    have hLast : (Fuelled.ofExcept (constructLastPath q root)).within fuel = some (.ok path) := congrArg some hPath
    exact .trans (Fuelled.within_bind_of_ok (.trans (Fuelled.within_bind_of_ok hFirst)
      (.trans (Fuelled.within_bind_of_ok hExport) (.trans (Fuelled.within_bind_of_ok hLast) rfl)))) rfl

theorem sequentialExport_twoLeaves {lastPrefix : Option Bytes} (hPrefix : lastPrefix.getD [] = []) :
    (sequentialExport twoLeavesStore pageSettings twoLeavesRoot lastPrefix 0 1).within 8 =
      Fuelled.rounds (fun p => .ofExcept (exportStep twoLeavesStore pageSettings p)) 8 8
        (startParams pageSettings twoLeavesRoot twoLeaves.bytes lastPrefix 0 1 [⟨[], twoLeaves, none⟩]) := by
  have hStore : twoLeavesStore twoLeavesRoot = some twoLeaves.bytes := if_pos rfl
  have hPath : (Fuelled.loop (fun p => .ofExcept (initNodePath twoLeavesStore p))
      ⟨twoLeavesRoot, [], [], []⟩).within 8 = some (.ok [⟨[], twoLeaves, none⟩]) := by
    rw [Fuelled.within_loop, Fuelled.rounds, Fuelled.within_ofExcept, initNodePath_end twoLeaves_holds []]
  rw [sequentialExport, if_neg (by decide), hStore, hPrefix]
  exact Fuelled.within_bind_of_ok hPath

theorem nextItem_empties {settings : ExportDataSettings}
    (h : ∀ i ∈ indices, node i = .emptyItem) : nextItem settings node indices = none := by
  induction indices with
  | nil => rfl
  | cons i rest ih =>
    rw [nextItem, h i List.mem_cons_self]
    exact ih fun j hj => h j (List.mem_cons_of_mem _ hj)

theorem twoLeaves_secondPage : (sequentialExport twoLeavesStore pageSettings twoLeavesRoot (some []) 0 1).within 8 =
    some (.ok (⟨[], [], [], [], [firstValue, secondValue]⟩, none)) := by
  have hNone : findNextNonEmptyItem pageSettings twoLeaves (some 1) = none := nextItem_empties twoLeaves_empty
  have hFirst : exportStep twoLeavesStore pageSettings
      (startParams pageSettings twoLeavesRoot twoLeaves.bytes (some []) 0 1 [⟨[], twoLeaves, none⟩]) =
      .ok (.inl ⟨[⟨[], twoLeaves, some 0⟩], 0, 1, ⟨[], [], [], [], [firstValue]⟩⟩) := rfl
  have hSecond : exportStep twoLeavesStore pageSettings
      ⟨[⟨[], twoLeaves, some 0⟩], 0, 1, ⟨[], [], [], [], [firstValue]⟩⟩ =
      .ok (.inl ⟨[⟨[], twoLeaves, some 1⟩], 0, 1, ⟨[], [], [], [], [firstValue, secondValue]⟩⟩) := rfl
  have hThird : exportStep twoLeavesStore pageSettings
      ⟨[⟨[], twoLeaves, some 1⟩], 0, 1, ⟨[], [], [], [], [firstValue, secondValue]⟩⟩ =
      .ok (.inl ⟨[], 0, 1, ⟨[], [], [], [], [firstValue, secondValue]⟩⟩) := by
    simp only [exportStep, hNone]
    rfl
  have hEnd : exportStep twoLeavesStore pageSettings ⟨[], 0, 1, ⟨[], [], [], [], [firstValue, secondValue]⟩⟩ =
      .ok (.inr (⟨[], [], [], [], [firstValue, secondValue]⟩, none)) := rfl
  rw [sequentialExport_twoLeaves rfl]
  simp only [Fuelled.rounds, Fuelled.within_ofExcept, hFirst, hSecond, hThird, hEnd]

def twoLeavesPath : NodePath := (twoLeavesRoot, none) :: List.replicate 5 (List.replicate 32 0, none)

theorem twoLeaves_firstStep : (syncStep twoLeavesStore 1 ⟨[(twoLeavesRoot, none)], ∅, ∅⟩).within 8 =
    some (.ok (.inl ⟨twoLeavesPath ++ [(twoLeavesRoot, none)], {twoLeavesRoot}, ∅⟩)) := by
  have hExport : (sequentialExport twoLeavesStore pageSettings twoLeavesRoot none 0 1).within 8 =
      some (.ok (⟨[], [twoLeavesRoot], [twoLeaves.bytes], [], []⟩, some [])) := by
    rw [sequentialExport_twoLeaves rfl, Fuelled.rounds, Fuelled.within_ofExcept]
    rfl
  have hNodes := @tryTraverseHistory_within twoLeavesStore twoLeavesRoot 1 twoLeavesPath none [] _ _ _ 8 rfl hExport rfl
  exact .trans (Fuelled.within_bind_of_ok (.trans (Fuelled.within_bind_of_ok hNodes) rfl)) rfl

theorem twoLeaves_secondStep :
    (syncStep twoLeavesStore 1 ⟨twoLeavesPath ++ [(twoLeavesRoot, none)], {twoLeavesRoot}, ∅⟩).within 8 =
      some (.ok (.inr ({twoLeavesRoot}, {firstValue}))) := by
  have hNodes := @tryTraverseHistory_within twoLeavesStore twoLeavesRoot 1 [] none
    (List.replicate 5 (List.replicate 32 0, none) ++ [(twoLeavesRoot, none)]) _ _ _ 8 rfl twoLeaves_secondPage rfl
  exact .trans (Fuelled.within_bind_of_ok (.trans (Fuelled.within_bind_of_ok hNodes) rfl)) rfl

/-- With pages of one node, the second page has no node and loses the second leaf. -/
theorem twoLeaves_second_lost : FiniteTrie twoLeavesStore twoLeavesRoot ∧ LeafOf twoLeavesStore twoLeavesRoot secondValue ∧
    (syncState twoLeavesStore twoLeavesRoot 1).within 8 = some (.ok ({twoLeavesRoot}, {firstValue})) ∧
    ¬ Complete twoLeavesStore twoLeavesRoot 1 := by
  have hLeaf : LeafOf twoLeavesStore twoLeavesRoot secondValue :=
    ⟨twoLeavesRoot, twoLeaves, 1, [], .root twoLeaves_holds, twoLeaves_holds, rfl⟩
  have hEnd : (syncState twoLeavesStore twoLeavesRoot 1).within 8 = some (.ok ({twoLeavesRoot}, {firstValue})) := by
    rw [syncState, Fuelled.within_loop, Fuelled.rounds, twoLeaves_firstStep]
    simp only [Fuelled.rounds, twoLeaves_secondStep]
  refine ⟨twoLeaves_finite, hLeaf, hEnd, fun hComplete => ?_⟩
  obtain ⟨r, hReach, -⟩ := syncState_reaches twoLeaves_isTrie Nat.one_pos
  rw [(complete_iff twoLeaves_isTrie hReach).mp hComplete] at hReach
  have hData := congrArg Prod.snd (Except.ok.inj (hReach.unique hEnd))
  exact absurd hData (by decide)

end F1r3Node.StateSync
