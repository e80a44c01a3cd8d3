import F1r3Node.StateSync.ExportPages
import F1r3Node.Space.HistoryRepository
import F1r3Node.Lib.Fallible

/-! # Validation of received chunks

A node that syncs a state walks the received history items just as the exporter walks its store, and accepts the chunk
when the keys and the last path are those of the walk.
-/

namespace F1r3Node.StateSync

open Shared
open History
open Lib
open Merging (hexEncode)
open Space (PersistedData prefixDatum prefixJoins prefixKont)

inductive StateItemsError where
  | invalidHistorySize (expected received : Int)
  | historyHashMismatch (key decoded : String)
  | traversal (error : ExportError)
  | historyItemsCorrupted
  | dataItemsCorrupted
  | invalidDataItem (message : String)
  | lastPathMismatch
  deriving DecidableEq

/-- `bincode` for the data items: an item is read, and a leaf is written again to be hashed. -/
structure ItemCodec where
  deserialize : Bytes → Except String PersistedData
  serializeLeaf : Bytes → Except String Bytes

abbrev StoreItems := List (Bytes × Bytes)

section

variable (hash : Bytes → Bytes) (codec : ItemCodec)

def getAndValidateHistoryItems : StoreItems → Except StateItemsError StoreItems
  | [] => .ok []
  | (key, trieBytes) :: items =>
    let trieHash := hash trieBytes
    if key = trieHash then (getAndValidateHistoryItems items).map ((trieHash, trieBytes) :: ·)
    else .error (.historyHashMismatch (hexEncode key) (hexEncode trieHash))

/-- The received items, collected into a map in which a later item replaces an earlier one, before the stored ones. -/
def getNode (trieItems : StoreItems) (getHistoryItem : Bytes → Option Bytes) (key : Bytes) : Option Bytes :=
  (trieItems.reverse.lookup key).or (getHistoryItem key)

def leafKinds (leafKeys : List (Bytes × Bytes)) (key : Bytes) : Finset (Option UInt8) :=
  ((leafKeys.filter fun leaf => leaf.1 = key).map fun leaf => leaf.2.head?).toFinset

def kindOf : PersistedData → UInt8
  | .joins _ => prefixJoins
  | .data _ => prefixDatum
  | .continuations _ => prefixKont

def leafOf : PersistedData → Bytes
  | .joins bytes | .data bytes | .continuations bytes => bytes

def validateDataItem (leafKeys : List (Bytes × Bytes)) (item : Bytes × Bytes) : Except String Unit := do
  let persistedData ← (codec.deserialize item.2).mapError fun e =>
    "Data item does not decode, key: " ++ hexEncode item.1 ++ ": " ++ e
  let bytes ← codec.serializeLeaf (leafOf persistedData)
  let dataHash := hash bytes
  if item.1 ≠ dataHash then
    throw ("Data hash does not match decoded data, key: " ++ hexEncode item.1 ++ ", decoded: " ++
      hexEncode dataHash ++ ".")
  if leafKinds leafKeys item.1 ≠ {some (kindOf persistedData)} then
    throw ("Data item kind does not match its trie key prefix, key: " ++ hexEncode item.1 ++ ".")

def validateDataItems (leafKeys : List (Bytes × Bytes)) (dataItems : StoreItems) : Except StateItemsError Unit :=
  (dataItems.forM (validateDataItem hash codec leafKeys)).mapError .invalidDataItem

def checkPage (nodes : List TrieNode) (leafKeys : List (Bytes × Bytes)) (historyItems dataItems : StoreItems)
    (received : NodePath) : Except StateItemsError Unit :=
  if lastPath nodes ≠ some received then .error .lastPathMismatch
  else if (historyItems.map Prod.fst).toFinset ≠ keysOf false nodes then .error .historyItemsCorrupted
  else if (dataItems.map Prod.fst).toFinset ≠ keysOf true nodes then .error .dataItemsCorrupted
  else validateDataItems hash codec leafKeys dataItems

/-- `history_items.len() as i32` -/
def receivedHistorySize (historyItems : StoreItems) : Int := (historyItems.length : Int).bmod (2 ^ 32)

def validateHistorySize (historyItems : StoreItems) (chunkSize : Int) : Except StateItemsError Unit :=
  let received := receivedHistorySize historyItems
  if received = chunkSize ∨ received < chunkSize then .ok () else .error (.invalidHistorySize chunkSize received)

def validateStateItems (historyItems dataItems : StoreItems) (startPath received : NodePath) (chunkSize skip : Int)
    (getHistoryItem : Bytes → Option Bytes) : Fuelled StateItemsError Unit := do
  .ofExcept (validateHistorySize historyItems chunkSize)
  let trieItems ← .ofExcept (getAndValidateHistoryItems hash historyItems)
  let (nodes, leafKeys) ← (traverse (getNode trieItems getHistoryItem) startPath skip chunkSize true).adaptError .traversal
  .ofExcept (checkPage hash codec nodes leafKeys historyItems dataItems received)

end

def Keyed (hash : Bytes → Bytes) (store : Bytes → Option Bytes) : Prop := ∀ key bytes, store key = some bytes → hash bytes = key

/-- The store of an honest exporter: every node below the root, under its hash. -/
structure TrueTrie (hash : Bytes → Bytes) (store : Bytes → Option Bytes) (root : Bytes) : Prop where
  keyed : Keyed hash store
  complete : FiniteBelow store root

variable {hash : Bytes → Bytes} {codec : ItemCodec} {store near : Bytes → Option Bytes} {root : Bytes}

theorem keyed_of_getAndValidateHistoryItems {items validated : StoreItems}
    (h : getAndValidateHistoryItems hash items = .ok validated) : ∀ item ∈ validated, hash item.2 = item.1 := by
  induction items generalizing validated with
  | nil =>
    cases h
    simp
  | cons item items ih =>
    obtain ⟨key, trieBytes⟩ := item
    rw [getAndValidateHistoryItems] at h
    split at h
    · next hKey =>
      cases hRest : getAndValidateHistoryItems hash items with
      | error e =>
        rw [hRest] at h
        cases h
      | ok rest =>
        rw [hRest] at h
        cases h
        intro item hItem
        obtain rfl | hItem := List.mem_cons.mp hItem
        · rfl
        · exact ih hRest item hItem
    · cases h

theorem keyed_getNode {trieItems : StoreItems} {getHistoryItem : Bytes → Option Bytes}
    (hItems : ∀ item ∈ trieItems, hash item.2 = item.1) (hStored : Keyed hash getHistoryItem) :
    Keyed hash (getNode trieItems getHistoryItem) := by
  intro key bytes hFound
  rw [getNode] at hFound
  cases hLookup : trieItems.reverse.lookup key with
  | none =>
    rw [hLookup] at hFound
    exact hStored key bytes hFound
  | some found =>
    rw [hLookup] at hFound
    cases hFound
    obtain ⟨before, after, hSplit, -⟩ := List.lookup_eq_some_iff.mp hLookup
    have hMem : (key, bytes) ∈ trieItems.reverse := by
      rw [hSplit]
      exact List.mem_append_right _ List.mem_cons_self
    exact hItems (key, bytes) (List.mem_reverse.mp hMem)

theorem FiniteBelow.held_of_nodeOf (h : FiniteBelow store root) {key : Bytes} (hNode : NodeOf store root key) :
    ∃ node, Holds store key node := by
  have hBelow : FiniteBelow store key := by
    induction hNode with
    | root => exact h
    | child hParent hHolds hItem ih =>
      obtain ⟨hSame, hChildren⟩ := ih
      obtain rfl := hSame.unique hHolds
      exact hChildren _ _ _ hItem
  obtain ⟨hHolds, -⟩ := hBelow
  exact ⟨_, hHolds⟩

theorem TrueTrie.eq_of_found (hInj : Function.Injective hash) (hTrie : TrueTrie hash store root)
    (hNear : Keyed hash near) {key bytes : Bytes} (hNode : NodeOf store root key) (hFound : near key = some bytes) :
    store key = some bytes := by
  obtain ⟨node, true', hStore, -⟩ := hTrie.complete.held_of_nodeOf hNode
  have hSame : hash true' = hash bytes := (hTrie.keyed key true' hStore).trans (hNear key bytes hFound).symm
  rw [hStore, hInj hSame]

def Known (store : Bytes → Option Bytes) (root : Bytes) (node : Node) : Prop :=
  ∃ key, NodeOf store root key ∧ Holds store key node

theorem Known.child {node : Node} (h : Known store root node) {i : UInt8} {p ptr : Bytes}
    (hItem : node i = .nodePtr p ptr) : NodeOf store root ptr := by
  obtain ⟨key, hNode, hHolds⟩ := h
  exact .child hNode hHolds hItem

section walk

variable (hInj : Function.Injective hash) (hTrie : TrueTrie hash store root) (hNear : Keyed hash near)

include hInj hTrie hNear

theorem initNodePath_simulated {p : NodePathData} (hNode : NodeOf store root p.hash)
    (hPath : ∀ data ∈ p.path, Known store root data.decoded) {outcome : NodePathData ⊕ List NodeData}
    (h : initNodePath near p = .ok outcome) :
    initNodePath store p = .ok outcome ∧ match outcome with
      | .inl p' => NodeOf store root p'.hash ∧ ∀ data ∈ p'.path, Known store root data.decoded
      | .inr path => ∀ data ∈ path, Known store root data.decoded := by
  cases hFound : near p.hash with
  | none =>
    rw [initNodePath, hFound] at h
    cases h
  | some bytes =>
    have hStore := hTrie.eq_of_found hInj hNear hNode hFound
    have hSame : initNodePath near p = initNodePath store p := by rw [initNodePath, initNodePath, hFound, hStore]
    refine ⟨hSame.symm.trans h, ?_⟩
    rw [initNodePath, hFound] at h
    obtain ⟨node, hDecode, hRest⟩ := exists_of_bind_ok h
    have hKnown : Known store root node := ⟨p.hash, hNode, bytes, hStore, hDecode⟩
    cases hPrefix : p.restPrefix with
    | nil =>
      rw [hPrefix] at hRest
      cases hRest
      exact List.forall_mem_cons.mpr ⟨hKnown, hPath⟩
    | cons head tail =>
      rw [hPrefix] at hRest
      obtain ⟨p', hChild, hDone⟩ := exists_of_bind_ok hRest
      cases hDone
      rw [processChildItem] at hChild
      split at hChild
      · next ptrPrefix ptr hItem =>
        dsimp only at hChild
        split at hChild
        · cases hChild
        · cases hChild
          exact ⟨hKnown.child hItem, List.forall_mem_cons.mpr ⟨hKnown, hPath⟩⟩
      · cases hChild

/-- The stacks are the same, made of nodes of the true trie, and so are the keys and the values so far; the
validator also keeps the prefixes of the leaves. -/
structure InStep (store : Bytes → Option Bytes) (root : Bytes) (s t : StepData) : Prop where
  path : t.path = s.path
  skip : t.skip = s.skip
  take : t.take = s.take
  nodeKeys : t.expData.nodeKeys = s.expData.nodeKeys
  leafValues : t.expData.leafValues = s.expData.leafValues
  known : ∀ data ∈ s.path, Known store root data.decoded

def SameResult (r r' : ExportData × Option Bytes) : Prop :=
  r'.1.nodeKeys = r.1.nodeKeys ∧ r'.1.leafValues = r.1.leafValues ∧ r'.2 = r.2

omit hInj hTrie hNear in
theorem nextItem_traverseSettings (flag : Bool) (node : Node) (indices : List UInt8) :
    nextItem (traverseSettings flag) node indices = nextItem pageSettings node indices := by
  induction indices with
  | nil => rfl
  | cons i rest ih =>
    rw [nextItem, nextItem, ih]
    cases node i <;> simp [traverseSettings]

omit hInj hTrie hNear in
theorem item_of_nextItem {settings : ExportDataSettings} {node : Node} {indices : List UInt8} {i : UInt8} {item : Item}
    (h : nextItem settings node indices = some (i, item)) : node i = item := by
  induction indices with
  | nil => cases h
  | cons j rest ih =>
    rw [nextItem] at h
    cases hItem : node j with
    | emptyItem =>
      rw [hItem] at h
      exact ih h
    | leaf p value =>
      rw [hItem] at h
      dsimp only at h
      split at h
      · cases h
        exact hItem
      · exact ih h
    | nodePtr p ptr =>
      rw [hItem] at h
      cases h
      exact hItem

theorem addElement_simulated {s t : StepData} (hStep : InStep store root s t) {curr : NodeData} {pathTail : List NodeData}
    (hPath : s.path = curr :: pathTail) {i : UInt8} {item : Item} (hItem : curr.decoded i = item) {s' : StepData}
    (h : addElement near (traverseSettings true) s i item curr pathTail = .ok s') :
    ∃ t', addElement store pageSettings t i item curr pathTail = .ok t' ∧ InStep store root s' t' := by
  obtain ⟨hSamePath, hSkip, hTake, hKeys, hValues, hKnown⟩ := hStep
  rw [hPath] at hKnown
  have hCurr := hKnown curr List.mem_cons_self
  have hMoved : ∀ data ∈ { curr with lastItemIndex := some i } :: pathTail, Known store root data.decoded :=
    List.forall_mem_cons.mpr ⟨hCurr, fun data hData => hKnown data (List.mem_cons_of_mem _ hData)⟩
  cases item with
  | emptyItem =>
    cases h
    exact ⟨_, rfl, rfl, hSkip, hTake, hKeys, hValues, hMoved⟩
  | leaf p value =>
    cases h
    refine ⟨_, rfl, ?_⟩
    simp only [addLeaf, hSkip]
    split
    · exact ⟨rfl, rfl, hTake, hKeys, hValues, hMoved⟩
    · exact ⟨rfl, rfl, hTake, hKeys, congrArg (· ++ [value]) hValues, hMoved⟩
  | nodePtr p ptr =>
    have hNode : NodeOf store root ptr := hCurr.child hItem
    rw [addElement, addNodePtr] at h
    cases hFound : near ptr with
    | none =>
      rw [hFound] at h
      cases h
    | some childNv =>
      rw [hFound] at h
      have hStore := hTrie.eq_of_found hInj hNear hNode hFound
      obtain ⟨child, hDecode, hRest⟩ := exists_of_bind_ok h
      have hDeeper : ∀ data ∈ ⟨curr.pre ++ i :: p, child, none⟩ :: { curr with lastItemIndex := some i } :: pathTail,
          Known store root data.decoded := List.forall_mem_cons.mpr ⟨⟨ptr, hNode, childNv, hStore, hDecode⟩, hMoved⟩
      simp only [addElement, addNodePtr, hStore, hDecode, hSkip]
      simp only [bind, Except.bind] at hRest ⊢
      split at hRest
      · next hPos =>
        cases hRest
        exact ⟨_, if_pos hPos, rfl, rfl, hTake, hKeys, hValues, hDeeper⟩
      · next hPos =>
        cases hRest
        exact ⟨_, if_neg hPos, rfl, rfl, congrArg (· - 1) hTake, congrArg (· ++ [ptr]) hKeys, hValues, hDeeper⟩

theorem exportStep_simulated {s t : StepData} (hStep : InStep store root s t)
    {outcome : StepData ⊕ (ExportData × Option Bytes)} (h : exportStep near (traverseSettings true) s = .ok outcome) :
    ∃ outcome', exportStep store pageSettings t = .ok outcome' ∧ match outcome, outcome' with
      | .inl s', .inl t' => InStep store root s' t'
      | .inr r, .inr r' => SameResult r r'
      | _, _ => False := by
  rw [exportStep] at h ⊢
  rw [hStep.path]
  cases hPath : s.path with
  | nil =>
    rw [hPath] at h
    cases h
    exact ⟨_, rfl, hStep.nodeKeys, hStep.leafValues, rfl⟩
  | cons curr pathTail =>
    rw [hPath] at h
    dsimp only at h ⊢
    rw [hStep.skip, hStep.take]
    split at h
    · next hEnded =>
      cases h
      exact ⟨_, if_pos hEnded, hStep.nodeKeys, hStep.leafValues, rfl⟩
    · next hEnded =>
      rw [if_neg hEnded, findNextNonEmptyItem, ← nextItem_traverseSettings true, ← findNextNonEmptyItem]
      cases hNext : findNextNonEmptyItem (traverseSettings true) curr.decoded curr.lastItemIndex with
      | none =>
        rw [hNext] at h
        cases h
        refine ⟨_, rfl, rfl, rfl, rfl, hStep.nodeKeys, hStep.leafValues, fun data hData => ?_⟩
        exact hStep.known data (by rw [hPath]; exact List.mem_cons_of_mem _ hData)
      | some found =>
        obtain ⟨i, item⟩ := found
        rw [hNext] at h
        obtain ⟨s', hAdded, hDone⟩ := exists_of_bind_ok h
        cases hDone
        have hItem : curr.decoded i = item := item_of_nextItem hNext
        obtain ⟨t', hAdded', hStep'⟩ := addElement_simulated hInj hTrie hNear hStep hPath hItem hAdded
        refine ⟨.inl t', ?_, hStep'⟩
        dsimp only
        rw [hAdded']
        rfl

omit hInj hTrie hNear in
theorem within_ofExcept {ε α : Type} {x : Except ε α} {fuel : Nat} {r : Except ε α}
    (h : (Fuelled.ofExcept x).within fuel = some r) : x = r := Option.some.inj h

theorem sequentialExport_simulated {bytes : Bytes} (hFound : near root = some bytes) {lastPrefix : Option Bytes}
    {skip take : Int} {fuel : Nat} {r : ExportData × Option Bytes}
    (h : (sequentialExport near (traverseSettings true) root lastPrefix skip take).within fuel = some (.ok r)) :
    ∃ r', (sequentialExport store pageSettings root lastPrefix skip take).within fuel = some (.ok r') ∧
      SameResult r r' := by
  have hRoot : NodeOf store root root := by
    obtain ⟨hHolds, -⟩ := hTrie.complete
    exact .root hHolds
  have hStore := hTrie.eq_of_found hInj hNear hRoot hFound
  rw [sequentialExport] at h ⊢
  split at h
  · cases h
  · next hSizes =>
    rw [if_neg hSizes, hStore]
    rw [hFound] at h
    obtain ⟨path, hPath, hExport⟩ := Fuelled.exists_of_within_bind h
    -- the search for the prefix
    have hSearch : ∃ path', (Fuelled.loop (fun p => .ofExcept (initNodePath store p))
        ⟨root, [], lastPrefix.getD [], []⟩).within fuel = some (.ok path') ∧
        (path = path' ∧ ∀ data ∈ path, Known store root data.decoded) := by
      refine Fuelled.rounds_simulated (R := fun p p' => p = p' ∧ NodeOf store root p.hash ∧
        ∀ data ∈ p.path, Known store root data.decoded)
        (Q := fun path path' => path = path' ∧ ∀ data ∈ path, Known store root data.decoded)
        ?_ ?_ fuel ⟨rfl, hRoot, by simp⟩ hPath
      · rintro p _ p' ⟨rfl, hNode, hKnown⟩ hStep
        obtain ⟨hSame, hNext⟩ := initNodePath_simulated hInj hTrie hNear hNode hKnown (within_ofExcept hStep)
        exact ⟨p', congrArg some hSame, rfl, hNext⟩
      · rintro p _ result ⟨rfl, hNode, hKnown⟩ hStep
        obtain ⟨hSame, hNext⟩ := initNodePath_simulated hInj hTrie hNear hNode hKnown (within_ofExcept hStep)
        exact ⟨result, congrArg some hSame, rfl, hNext⟩
    obtain ⟨_, hPath', rfl, hKnown⟩ := hSearch
    rw [Fuelled.within_bind_of_ok hPath']
    -- the export
    have hStart : InStep store root (startParams (traverseSettings true) root bytes lastPrefix skip take path)
        (startParams pageSettings root bytes lastPrefix skip take path) := by
      cases lastPrefix with
      | some q => exact ⟨rfl, rfl, rfl, rfl, rfl, hKnown⟩
      | none =>
        simp only [startParams]
        split
        · exact ⟨rfl, rfl, rfl, rfl, rfl, hKnown⟩
        · exact ⟨rfl, rfl, rfl, rfl, rfl, hKnown⟩
    refine Fuelled.rounds_simulated (R := InStep store root) ?_ ?_ fuel hStart hExport
    · intro s t s' hStep hNext
      obtain ⟨outcome', hSame, hRel⟩ := exportStep_simulated hInj hTrie hNear hStep (within_ofExcept hNext)
      cases outcome' with
      | inl t' => exact ⟨t', congrArg some hSame, hRel⟩
      | inr r' => exact hRel.elim
    · intro s t result hStep hNext
      obtain ⟨outcome', hSame, hRel⟩ := exportStep_simulated hInj hTrie hNear hStep (within_ofExcept hNext)
      cases outcome' with
      | inl t' => exact hRel.elim
      | inr r' => exact ⟨r', congrArg some hSame, hRel⟩

theorem traverse_simulated {bytes : Bytes} (hFound : near root = some bytes) {hint : Option UInt8} {rest : NodePath}
    {skip take : Int} {fuel : Nat} {nodes : List TrieNode} {leaves : List (Bytes × Bytes)}
    (h : (traverse near ((root, hint) :: rest) skip take true).within fuel = some (.ok (nodes, leaves))) :
    (tryTraverseHistory store ((root, hint) :: rest) skip take).within fuel = some (.ok nodes) := by
  rw [traverse, List.map_cons] at h
  obtain ⟨lastPrefix, hPrefix, h⟩ := Fuelled.exists_of_within_bind h
  obtain ⟨⟨data, stopped⟩, hExport, h⟩ := Fuelled.exists_of_within_bind h
  obtain ⟨⟨data', stopped'⟩, hExport', hKeys, hValues, hStopped⟩ :=
    sequentialExport_simulated hInj hTrie hNear hFound hExport
  dsimp only at hKeys hValues hStopped
  subst hStopped
  have hTraverse : (traverse store ((root, hint) :: rest) skip take false).within fuel =
      some (.ok (nodes, data'.leafValues.zip data'.leafPrefixes)) := by
    rw [traverse, List.map_cons, Fuelled.within_bind_of_ok hPrefix, Fuelled.within_bind_of_ok hExport']
    cases stopped' with
    | none =>
      have hNodes := congrArg Prod.fst (Except.ok.inj (Option.some.inj h))
      dsimp only at hNodes
      dsimp only
      rw [hKeys, hValues, ← hNodes]
      rfl
    | some q =>
      obtain ⟨path, hPath, h⟩ := Fuelled.exists_of_within_bind h
      have hNodes := congrArg Prod.fst (Except.ok.inj (Option.some.inj h))
      dsimp only at hNodes
      dsimp only
      rw [hKeys, hValues, ← hNodes, Fuelled.within_bind_of_ok hPath]
      rfl
  rw [tryTraverseHistory, Fuelled.within_bind_of_ok hTraverse]
  rfl

end walk

structure Chunk where
  historyItems : StoreItems
  dataItems : StoreItems
  lastPath : NodePath

def Chunk.page (chunk : Chunk) : Page :=
  ⟨(chunk.historyItems.map Prod.fst).toFinset, (chunk.dataItems.map Prod.fst).toFinset, chunk.lastPath⟩

def Accepts (hash : Bytes → Bytes) (codec : ItemCodec) (startPath : NodePath) (chunkSize : Int) (chunk : Chunk) : Prop :=
  ∃ getHistoryItem, Keyed hash getHistoryItem ∧ ∃ fuel,
    (validateStateItems hash codec chunk.historyItems chunk.dataItems startPath chunk.lastPath chunkSize 0
      getHistoryItem).within fuel = some (.ok ())

theorem steady_getHistoryAndData (startPath : NodePath) (skip take : Int) :
    Steady (getHistoryAndData store startPath skip take) := by
  have hExport : ∀ settings root lastPrefix, Steady (sequentialExport store settings root lastPrefix skip take) := by
    intro settings root lastPrefix
    rw [sequentialExport]
    split
    · exact .throw _
    · split
      · exact .pure _
      · exact .bind (.loop (fun _ => .ofExcept _) _) fun _ => .loop (fun _ => .ofExcept _) _
  rw [getHistoryAndData_eq, tryTraverseHistory, traverse]
  refine .bind (.bind ?_ fun _ => .pure _) fun _ => .ofExcept _
  split
  · exact .pure _
  · refine .bind (.ofExcept _) fun _ => .bind (hExport _ _ _) fun result => ?_
    obtain ⟨data, stopped⟩ := result
    cases stopped with
    | none => exact .bind (.pure _) fun _ => .pure _
    | some q => exact .bind (.ofExcept _) fun _ => .pure _

theorem checkPage_ok {nodes : List TrieNode} {leafKeys : List (Bytes × Bytes)} {chunk : Chunk}
    (h : checkPage hash codec nodes leafKeys chunk.historyItems chunk.dataItems chunk.lastPath = .ok ()) :
    pageAt nodes = .ok chunk.page := by
  rw [checkPage] at h
  split at h
  · cases h
  · next hPath =>
    split at h
    · cases h
    · next hHistory =>
      split at h
      · cases h
      · next hData => rw [pageAt, not_not.mp hPath, Chunk.page, not_not.mp hHistory, not_not.mp hData]

theorem traverse_absent {hint : Option UInt8} {rest : NodePath} {take : Int} {fuel : Nat} {nodes : List TrieNode}
    {leaves : List (Bytes × Bytes)} (hAbsent : near root = none)
    (h : (traverse near ((root, hint) :: rest) 0 take true).within fuel = some (.ok (nodes, leaves))) : nodes = [] := by
  rw [traverse, List.map_cons] at h
  obtain ⟨lastPrefix, -, h⟩ := Fuelled.exists_of_within_bind h
  obtain ⟨⟨data, stopped⟩, hExport, h⟩ := Fuelled.exists_of_within_bind h
  rw [sequentialExport, hAbsent] at hExport
  split at hExport
  · cases hExport
  · cases hExport
    exact (congrArg Prod.fst (Except.ok.inj (Option.some.inj h))).symm

theorem Accepts.honest (hInj : Function.Injective hash) (hTrie : TrueTrie hash store root) {hint : Option UInt8}
    {rest : NodePath} {chunkSize : Int} {chunk : Chunk}
    (h : Accepts hash codec ((root, hint) :: rest) chunkSize chunk) :
    Reaches (getHistoryAndData store ((root, hint) :: rest) 0 chunkSize) (.ok chunk.page) := by
  obtain ⟨getHistoryItem, hStored, fuel, hRun⟩ := h
  obtain ⟨-, -, hRun⟩ := Fuelled.exists_of_within_bind hRun
  obtain ⟨trieItems, hItems, hRun⟩ := Fuelled.exists_of_within_bind hRun
  obtain ⟨⟨nodes, leafKeys⟩, hTraverse, hCheck⟩ := Fuelled.exists_of_within_bind hRun
  have hTraverse := Fuelled.within_adaptError_ok hTraverse
  have hPage := checkPage_ok (within_ofExcept hCheck)
  have hNear := keyed_getNode (keyed_of_getAndValidateHistoryItems (within_ofExcept hItems)) hStored
  cases hFound : getNode trieItems getHistoryItem root with
  | none =>
    -- a root that is not found gives no node, and no last path
    have hNodes := traverse_absent hFound hTraverse
    rw [hNodes] at hPage
    cases hPage
  | some bytes =>
    have hEnd : (getHistoryAndData store ((root, hint) :: rest) 0 chunkSize).within fuel = some (.ok chunk.page) := by
      rw [getHistoryAndData_eq, Fuelled.within_bind_of_ok (traverse_simulated hInj hTrie hNear hFound hTraverse), hPage]
      rfl
    exact (steady_getHistoryAndData _ _ _).reaches hEnd

/-- Chunks accepted one after the other, each asked for at the last path of the one before, up to one with a last path
of one element; with the keys of all of them. -/
inductive AcceptedRun (hash : Bytes → Bytes) (codec : ItemCodec) (chunkSize : Int) :
    NodePath → Finset Bytes → Finset Bytes → Prop
  | last {startPath : NodePath} {chunk : Chunk} (hChunk : Accepts hash codec startPath chunkSize chunk)
      (hEnd : chunk.lastPath.length = 1) :
      AcceptedRun hash codec chunkSize startPath chunk.page.historyKeys chunk.page.dataKeys
  | more {startPath : NodePath} {chunk : Chunk} {history data : Finset Bytes}
      (hChunk : Accepts hash codec startPath chunkSize chunk) (hMore : chunk.lastPath.length ≠ 1)
      (hRest : AcceptedRun hash codec chunkSize chunk.lastPath history data) :
      AcceptedRun hash codec chunkSize startPath (chunk.page.historyKeys ∪ history) (chunk.page.dataKeys ∪ data)

theorem pageOf_cut {n : Nat} (hn : 0 < n) {rest : List Visit} {page : Page}
    (hPage : pageOf root (cut n rest).1 ((cut n rest).2.map Prod.fst) = .ok page) :
    (page.lastPath.length = 1 ∧ page.historyKeys = (visitedNodes rest).toFinset ∧
      page.dataKeys ⊆ (visitedLeaves rest).toFinset) ∨
    ∃ front q hash later path, rest = front ++ .node q hash :: later ∧ constructLastPath q root = .ok path ∧
      page.lastPath.length ≠ 1 ∧ page = ⟨(visitedNodes (front ++ [.node q hash])).toFinset,
        (visitedLeaves (front ++ [.node q hash])).toFinset, path ++ [(hash, none)]⟩ := by
  cases hCut : (cut n rest).2 with
  | none =>
    obtain ⟨hTaken, -⟩ := cut_none hn hCut
    rw [hTaken, hCut, Option.map_none] at hPage
    refine .inl ?_
    by_cases hNodes : visitedNodes rest = []
    · cases hLast : (visitedLeaves rest).dropLast.getLast? with
      | none =>
        have hLeaves := List.getLast?_eq_none_iff.mp hLast
        obtain ⟨e, hError⟩ : ∃ e, pageOf root rest none = .error e := pageOf_short hNodes hLeaves
        rw [hError] at hPage
        cases hPage
      | some value =>
        rw [pageOf_leaves hNodes hLast] at hPage
        cases hPage
        refine ⟨rfl, by rw [hNodes]; rfl, ?_⟩
        intro key hKey
        exact List.mem_toFinset.mpr (List.dropLast_subset _ (List.mem_toFinset.mp hKey))
    · obtain ⟨hash, hLast⟩ := Option.ne_none_iff_exists'.mp (mt List.getLast?_eq_none_iff.mp hNodes)
      rw [pageOf_node rfl hLast] at hPage
      cases hPage
      exact ⟨rfl, rfl, Finset.Subset.refl _⟩
  | some stop =>
    obtain ⟨q, later⟩ := stop
    obtain ⟨front, hash, rfl, hTaken, -⟩ := cut_some hn hCut
    rw [hTaken, hCut, Option.map_some] at hPage
    dsimp only at hPage
    refine .inr ⟨front, q, hash, later, ?_⟩
    by_cases hq : q.length ≤ 128
    · obtain ⟨path, hPath, hLong⟩ := constructLastPath_ok root hq
      have hLast : (visitedNodes (front ++ [.node q hash])).getLast? = some hash := by simp
      have hPageOf : pageOf root (front ++ [.node q hash]) (some q) = .ok _ := pageOf_node hPath hLast
      rw [hPageOf] at hPage
      cases hPage
      refine ⟨path, rfl, hPath, ?_, rfl⟩
      rw [List.length_append, hLong, List.length_singleton]
      decide
    · rw [pageOf, stopPath, constructLastPath, if_pos (by omega)] at hPage
      cases hPage

theorem AcceptedRun.keys (hInj : Function.Injective hash) (hTrie : TrueTrie hash store root) {node : Node}
    {below : List Visit} (hRoot : Holds store root node) (hWalk : Walk store [] node allBytes below) {n : Nat}
    (hn : 0 < n) {startPath : NodePath} {history data : Finset Bytes}
    (hRun : AcceptedRun hash codec n startPath history data) {done rest : List Visit}
    (hSplit : .node [] root :: below = done ++ rest)
    (hStart : ∃ hint prefixVec, startPath = (root, hint) :: prefixVec)
    (hPage : Reaches (getHistoryAndData store startPath 0 n) (pageOf root (cut n rest).1 ((cut n rest).2.map Prod.fst))) :
    history = (visitedNodes rest).toFinset ∧ data ⊆ (visitedLeaves rest).toFinset := by
  induction hRun generalizing done rest with
  | @last startPath chunk hChunk hEnd =>
    obtain ⟨hint, prefixVec, rfl⟩ := hStart
    have hSame := hPage.unique ((hChunk.honest hInj hTrie).enough.choose_spec _ le_rfl)
    obtain ⟨-, hHistory, hData⟩ | ⟨_, _, _, _, _, -, -, hMore, -⟩ := pageOf_cut hn hSame.symm
    · exact ⟨hHistory, hData⟩
    · exact absurd hEnd hMore
  | @more startPath chunk history data hChunk hMore hRest ih =>
    obtain ⟨hint, prefixVec, rfl⟩ := hStart
    have hSame := hPage.unique ((hChunk.honest hInj hTrie).enough.choose_spec _ le_rfl)
    obtain ⟨hEnd, -, -⟩ | ⟨front, q, hash', later, path, rfl, hPath, -, hKeys⟩ := pageOf_cut hn hSame.symm
    · exact absurd hEnd hMore
    · have hLast : chunk.lastPath = path ++ [(hash', none)] := congrArg Page.lastPath hKeys
      have hHere : .node [] root :: below = done ++ front ++ .node q hash' :: later := by
        rw [hSplit, List.append_assoc]
      have hNext := getHistoryAndData_next hRoot hWalk hn hHere hPath (hash', none)
      have hResumes : ∃ hint prefixVec, chunk.lastPath = (root, hint) :: prefixVec := by
        obtain ⟨prefixVec, hVec, -⟩ := createLastPrefix_constructLastPath hPath (hash', none)
        exact ⟨none, prefixVec, hLast.trans hVec⟩
      rw [← hLast] at hNext
      have hDone : .node [] root :: below = (done ++ front ++ [.node q hash']) ++ later := by
        rw [hHere, List.append_assoc, List.append_assoc, List.append_assoc, List.singleton_append]
      obtain ⟨hHistory, hData⟩ := ih hDone hResumes hNext
      have hAll : front ++ .node q hash' :: later = (front ++ [.node q hash']) ++ later := by simp
      rw [hKeys, hAll, visitedNodes_append _ later, visitedLeaves_append _ later, List.toFinset_append,
        List.toFinset_append, hHistory]
      exact ⟨rfl, Finset.union_subset_union_right hData⟩

/-- Every accepted chunk is the page of the honest exporter, and the chunks from the root to the end bring exactly the
nodes of the true trie. -/
theorem validateStateItems_sound (hInj : Function.Injective hash) (hTrie : TrueTrie hash store root)
    (codec : ItemCodec) :
    (∀ hint rest chunkSize chunk, Accepts hash codec ((root, hint) :: rest) chunkSize chunk →
      Reaches (getHistoryAndData store ((root, hint) :: rest) 0 chunkSize) (.ok chunk.page)) ∧
    ∀ n : Nat, 0 < n → ∀ history data, AcceptedRun hash codec n [(root, none)] history data →
      (∀ key, key ∈ history ↔ NodeOf store root key) ∧ ∀ value ∈ data, LeafOf store root value := by
  refine ⟨fun hint rest chunkSize chunk h => h.honest hInj hTrie, fun n hn history data hRun => ?_⟩
  obtain ⟨visits, hVisits⟩ := FiniteTrie.exists_isTrie (.inr hTrie.complete)
  have hNodes := hVisits.mem_visitedNodes
  have hLeaves := hVisits.mem_visitedLeaves
  cases hVisits with
  | absent hAbsent =>
    obtain ⟨⟨bytes, hStore, -⟩, -⟩ := hTrie.complete
    rw [hAbsent] at hStore
    cases hStore
  | held hRoot hWalk =>
    obtain ⟨rfl, hData⟩ := hRun.keys hInj hTrie hRoot hWalk hn (List.nil_append _).symm ⟨none, [], rfl⟩
      (getHistoryAndData_first hRoot hWalk hn)
    refine ⟨fun key => ?_, fun value hValue => ?_⟩
    · rw [List.mem_toFinset, hNodes]
    · exact (hLeaves value).mp (List.mem_toFinset.mp (hData hValue))

/-! The node of two leaves under its own bytes: a datum and a continuation. -/

def plainRoot : Bytes := twoLeaves.bytes

def plainStore : Bytes → Option Bytes := fun key => if key = plainRoot then some plainRoot else none

def plainCodec : ItemCodec where
  deserialize bytes := .ok (if bytes = firstValue then .data bytes else .continuations bytes)
  serializeLeaf := .ok

def plainChunk : Chunk where
  historyItems := [(plainRoot, plainRoot)]
  dataItems := [(firstValue, firstValue), (secondValue, secondValue)]
  lastPath := [(plainRoot, none)]

theorem plainStore_trueTrie : TrueTrie id plainStore plainRoot := by
  have hRoot : Holds plainStore plainRoot twoLeaves := by
    refine ⟨plainRoot, if_pos rfl, ?_⟩
    rw [decodeNode, plainRoot, tryDecode_bytes twoLeaves_wellFormed]
    rfl
  refine ⟨fun key bytes hFound => ?_, .intro hRoot fun i p ptr hItem => ?_⟩
  · rw [plainStore] at hFound
    split at hFound
    · next hKey =>
      cases hFound
      exact hKey.symm
    · cases hFound
  · rw [twoLeaves] at hItem
    split at hItem
    · cases hItem
    · split at hItem <;> cases hItem

theorem validateStateItems_sound_plain : Accepts id plainCodec [(plainRoot, none)] 2 plainChunk ∧
    Reaches (getHistoryAndData plainStore [(plainRoot, none)] 0 2) (.ok plainChunk.page) ∧
    ∀ key, key ∈ plainChunk.page.historyKeys ↔ NodeOf plainStore plainRoot key := by
  have hAccepts : Accepts id plainCodec [(plainRoot, none)] 2 plainChunk :=
    ⟨fun _ => none, nofun, 8, by decide +kernel⟩
  obtain ⟨hHonest, hRuns⟩ := validateStateItems_sound Function.injective_id plainStore_trueTrie plainCodec
  exact ⟨hAccepts, hHonest none [] 2 plainChunk hAccepts, (hRuns 2 Nat.two_pos _ _ (.last hAccepts rfl)).1⟩

end F1r3Node.StateSync
