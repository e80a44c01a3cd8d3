import F1r3Node.CasperBuffer.DependencyDag
import Mathlib.Algebra.Order.BigOperators.Group.Finset

/-! # The Casper buffer

The dependency DAG is kept in memory, and the parents of every waiting block are kept in a store as well. Which
accesses to the store fail is decided by the environment.
-/

namespace F1r3Node.CasperBuffer

open Shared Lib.Stateful
open DagStorage (HashOrder)

structure CasperBufferKeyValueStorage where
  parentsStore : Links
  blockDependencyDag : BlockDependencyDag
  firstSeenMs : Finmap fun _ : Bytes => Nat
  lastPruneMs : Nat
  released : Finset Bytes

inductive StoreAccess where
  | getOne (key : Bytes)
  | putOne (key : Bytes)
  | put (keys : List Bytes)
  | delete (keys : List Bytes)

inductive KvStoreError where
  | ioError (access : StoreAccess)

abbrev BufferM := EStateM KvStoreError CasperBufferKeyValueStorage

section

variable (fails : StoreAccess → Bool)

def access (which : StoreAccess) : BufferM Unit := if fails which then throw (.ioError which) else pure ()

def getOne (key : Bytes) : BufferM (Option (Finset Bytes)) := do
  access fails (.getOne key)
  return (← get).parentsStore.lookup key

def putOne (key : Bytes) (parents : Finset Bytes) : BufferM Unit := do
  access fails (.putOne key)
  modify fun s => { s with parentsStore := s.parentsStore.insert key parents }

def putRows (store : Links) (rows : List (Bytes × Finset Bytes)) : Links :=
  rows.foldl (fun store row => store.insert row.1 row.2) store

def eraseKeys {β : Bytes → Type} (table : Finmap β) (keys : List Bytes) : Finmap β :=
  keys.foldl (fun table key => table.erase key) table

def put (rows : List (Bytes × Finset Bytes)) : BufferM Unit := do
  access fails (.put (rows.map Prod.fst))
  modify fun s => { s with parentsStore := putRows s.parentsStore rows }

def delete (keys : List Bytes) : BufferM Unit := do
  access fails (.delete keys)
  modify fun s => { s with parentsStore := eraseKeys s.parentsStore keys }

variable (now : Nat)

def trackHashFirstSeen (hash : Bytes) : BufferM Unit :=
  modify fun s => { s with
    firstSeenMs := if hash ∈ s.firstSeenMs then s.firstSeenMs else s.firstSeenMs.insert hash now }

def addRelationUnlocked (parent child : Bytes) : BufferM Unit := do
  trackHashFirstSeen now parent
  trackHashFirstSeen now child
  let parents ← getOne fails child
  putOne fails child (insert parent (parents.getD ∅))
  modify fun s => { s with blockDependencyDag := s.blockDependencyDag.add parent child }

variable (order : HashOrder)

def removeUnlocked (hash : Bytes) : BufferM Unit := do
  let removal := (← get).blockDependencyDag.remove order hash
  modify fun s => { s with
    blockDependencyDag := removal.dag
    firstSeenMs := s.firstSeenMs.erase hash
    released := s.released ∪ removal.childrenRemoved }
  put fails ((order.toList removal.childrenAffected).map fun h => (h, removal.dag.parents h))
  modify fun s => { s with firstSeenMs := eraseKeys s.firstSeenMs (order.toList removal.orphanedParents) }
  delete fails (order.toList removal.childrenRemoved ++ [hash] ++ order.toList removal.orphanedParents)

/-- The bytes of `tempblock`. -/
def tempBlock : Bytes := [116, 101, 109, 112, 98, 108, 111, 99, 107]

def putPendantUnlocked (block : Bytes) : BufferM Unit := do
  addRelationUnlocked fails now tempBlock block
  removeUnlocked fails order tempBlock

/-- The links after a pruned leaf: a parent that lost its last child is kept, other than in a removal. -/
def BlockDependencyDag.pruneLeaf (dag : BlockDependencyDag) (hash : Bytes) : BlockDependencyDag :=
  let removal := dag.remove order hash
  { removal.dag with
    dependencyFree :=
      removal.dag.dependencyFree ∪ removal.orphanedParents.filter (· ∉ removal.dag.childToParent) }

def pruneLeafUnlocked (hash : Bytes) : BufferM Bool := do
  let dag := (← get).blockDependencyDag
  if dag.children hash ≠ ∅ ∨ ¬ (hash ∈ dag.childToParent ∨ hash ∈ dag.dependencyFree) then
    return false
  (order.toList (dag.parents hash)).forM fun parent =>
    if parent ∉ dag.childToParent ∧ (dag.children parent).card = 1 then putOne fails parent ∅ else pure ()
  delete fails [hash]
  modify fun s => { s with
    blockDependencyDag := dag.pruneLeaf order hash
    firstSeenMs := s.firstSeenMs.erase hash
    released := s.released.erase hash }
  return true

end

namespace CasperBufferKeyValueStorage

variable (s : CasperBufferKeyValueStorage) (order : HashOrder)

def blockCountUnlocked : Nat :=
  s.blockDependencyDag.childToParent.keys.card + s.blockDependencyDag.dependencyFree.card

def dependencyFreeNodesWithAgeMs (now : Nat) : List (Nat × Bytes) :=
  (order.toList s.blockDependencyDag.dependencyFree).map fun hash =>
    (now - (s.firstSeenMs.lookup hash).getD now, hash)

end CasperBufferKeyValueStorage

/-- The loop of `subtree_postorder_unlocked`; a hash on the stack is marked once its children are on it. -/
def postorderLoop (order : HashOrder) (dag : BlockDependencyDag) :
    Nat → List (Bytes × Bool) → Finset Bytes → List Bytes → List Bytes
  | 0, _, _, postorder => postorder
  | _ + 1, [], _, postorder => postorder
  | rounds + 1, (hash, expanded) :: stack, visited, postorder =>
    if expanded then postorderLoop order dag rounds stack visited (postorder ++ [hash])
    else if hash ∈ visited then postorderLoop order dag rounds stack visited postorder
    else
      let children := sortByKey id (order.toList (dag.children hash))
      postorderLoop order dag rounds (children.map (·, false) ++ (hash, true) :: stack) (insert hash visited) postorder

/-- Every link puts a hash on the stack, and every hash comes up once more after its children. -/
def postorderRounds (dag : BlockDependencyDag) : Nat :=
  2 * ((dag.parentToChild.keys.sum fun hash => (dag.children hash).card) + 1)

def subtreePostorderUnlocked (order : HashOrder) (dag : BlockDependencyDag) (root : Bytes) : List Bytes :=
  postorderLoop order dag (postorderRounds dag) [(root, false)] ∅ []

theorem postorderLoop_rounds {order : HashOrder} {dag : BlockDependencyDag} {rounds : Nat}
    {stack : List (Bytes × Bool)} {visited : Finset Bytes} {postorder : List Bytes} (nodes : Finset Bytes)
    (hNodes : ∀ h ∈ nodes, dag.children h ⊆ nodes) (hStack : ∀ item ∈ stack, item.1 ∈ nodes)
    (hRounds : stack.length + (nodes \ visited).sum (fun h => (dag.children h).card + 1) ≤ rounds) (extra : Nat) :
    postorderLoop order dag (rounds + extra) stack visited postorder =
      postorderLoop order dag rounds stack visited postorder := by
  induction rounds generalizing stack visited postorder with
  | zero =>
    have hEmpty : stack = [] := List.length_eq_zero_iff.mp (by omega)
    rw [hEmpty]
    cases extra <;> simp [postorderLoop]
  | succ rounds ih =>
    rw [Nat.succ_add]
    cases stack with
    | nil => rfl
    | cons item stack =>
      obtain ⟨hash, expanded⟩ := item
      obtain ⟨hItem, hRest⟩ := List.forall_mem_cons.mp hStack
      rw [List.length_cons] at hRounds
      rw [postorderLoop, postorderLoop]
      split
      · exact ih hRest (by omega)
      · split
        · exact ih hRest (by omega)
        · next hNew =>
          have hPerm : (sortByKey id (order.toList (dag.children hash))).Perm (order.toList (dag.children hash)) :=
            perm_sortByKey id _
          have hLength : (sortByKey id (order.toList (dag.children hash))).length = (dag.children hash).card := by
            rw [hPerm.length_eq, ← List.toFinset_card_of_nodup (order.nodup _)]
            congr 1
            ext h
            rw [List.mem_toFinset, order.mem_toList]
          have hPaid : (nodes \ visited).sum (fun h => (dag.children h).card + 1) =
              (nodes \ insert hash visited).sum (fun h => (dag.children h).card + 1) +
                ((dag.children hash).card + 1) := by
            rw [Finset.sdiff_insert]
            exact (Finset.sum_erase_add _ _ (Finset.mem_sdiff.mpr ⟨hItem, hNew⟩)).symm
          refine ih ?_ ?_
          · intro item hMem
            rcases List.mem_append.mp hMem with hChild | hOld
            · obtain ⟨child, hSorted, rfl⟩ := List.mem_map.mp hChild
              exact hNodes hash hItem ((order.mem_toList _ _).mp (hPerm.mem_iff.mp hSorted))
            · rcases List.mem_cons.mp hOld with rfl | hOld
              · exact hItem
              · exact hRest item hOld
          · rw [List.length_append, List.length_map, hLength, List.length_cons]
            omega

theorem subtreePostorderUnlocked_rounds (order : HashOrder) (dag : BlockDependencyDag) (root : Bytes) (extra : Nat) :
    postorderLoop order dag (postorderRounds dag + extra) [(root, false)] ∅ [] =
      subtreePostorderUnlocked order dag root := by
  have hKeys : ∀ h, h ∉ dag.parentToChild.keys → dag.children h = ∅ := by
    intro h hNot
    rw [Finmap.mem_keys] at hNot
    rw [BlockDependencyDag.children, linksOf, Finmap.lookup_eq_none.mpr hNot, Option.getD_none]
  let targets := dag.parentToChild.keys.biUnion dag.children
  have hTargets : ∀ h, dag.children h ⊆ targets := by
    intro h child hChild
    refine Finset.mem_biUnion.mpr ⟨h, ?_, hChild⟩
    by_contra hNot
    rw [hKeys h hNot] at hChild
    exact absurd hChild (Finset.notMem_empty child)
  refine postorderLoop_rounds (insert root targets)
    (fun h _ => (hTargets h).trans (Finset.subset_insert _ _)) (by simp) ?_ extra
  have hLinks : (insert root targets).sum (fun h => (dag.children h).card) ≤
      dag.parentToChild.keys.sum fun h => (dag.children h).card := by
    refine Finset.sum_le_sum_of_ne_zero fun h _ hSome => ?_
    by_contra hNot
    rw [hKeys h hNot] at hSome
    exact hSome rfl
  have hCount : (insert root targets).card ≤ (dag.parentToChild.keys.sum fun h => (dag.children h).card) + 1 :=
    (Finset.card_insert_le _ _).trans (Nat.add_le_add_right Finset.card_biUnion_le 1)
  rw [Finset.sdiff_empty, Finset.sum_add_distrib, ← Finset.card_eq_sum_ones, postorderRounds, List.length_singleton]
  omega

structure PruneLimits where
  maxBlocks : Nat
  staleTtlMs : Nat
  maxPruneBatch : Nat
  pruneIntervalMs : Nat
  isReady : Bytes → Bool

/-- The buffer with the local variables of `enforce_limits_with_readiness`. -/
structure Pruning where
  buffer : CasperBufferKeyValueStorage
  stale : List Bytes
  overflow : List Bytes
  tried : Finset Bytes

abbrev PruneM := EStateM KvStoreError Pruning

def onBuffer {α : Type} (x : BufferM α) : PruneM α := fun p =>
  match x.run p.buffer with
  | .ok a buffer => .ok a { p with buffer }
  | .error e buffer => .error e { p with buffer }

section

variable (fails : StoreAccess → Bool) (order : HashOrder) (limits : PruneLimits)

def record (staleRoot : Bool) (hash : Bytes) (p : Pruning) : Pruning :=
  if staleRoot then { p with stale := p.stale ++ [hash] } else { p with overflow := p.overflow ++ [hash] }

def pruneSubtree (staleRoot : Bool) : List Bytes → PruneM Unit
  | [] => pure ()
  | hash :: hashes => do
    let p ← get
    if limits.maxPruneBatch ≤ p.stale.length + p.overflow.length ∨
        staleRoot = false ∧ p.buffer.blockCountUnlocked ≤ limits.maxBlocks then
      return
    modify fun p => { p with tried := insert hash p.tried }
    if hash ∉ p.tried ∧ limits.isReady hash = false ∧
        (p.buffer.blockDependencyDag.children hash).card = 0 then
      if ← onBuffer (pruneLeafUnlocked fails order hash) then
        modify (record staleRoot hash)
    pruneSubtree staleRoot hashes

def pruneRoots : List (Nat × Bytes) → PruneM Unit
  | [] => pure ()
  | (rootAge, root) :: roots => do
    let p ← get
    if limits.maxPruneBatch ≤ p.stale.length + p.overflow.length then
      return
    let staleRoot := decide (limits.staleTtlMs ≤ rootAge)
    if ¬ (staleRoot = false ∧ p.buffer.blockCountUnlocked ≤ limits.maxBlocks ∨ limits.isReady root = true) then
      pruneSubtree fails order limits staleRoot (subtreePostorderUnlocked order p.buffer.blockDependencyDag root)
    pruneRoots roots

def sortRoots (roots : List (Nat × Bytes)) : List (Nat × Bytes) :=
  roots.insertionSort fun a b => b.1 < a.1 ∨ a.1 = b.1 ∧ a.2 ≤ b.2

def enforceLimitsLoop (now : Nat) : PruneM Unit := do
  let p ← get
  if now - p.buffer.lastPruneMs < limits.pruneIntervalMs then
    return
  modify fun p => { p with buffer := { p.buffer with lastPruneMs := now } }
  pruneRoots fails order limits (sortRoots (p.buffer.dependencyFreeNodesWithAgeMs order now))

def enforceLimitsWithReadiness (now : Nat) : BufferM (List Bytes × List Bytes) := fun s =>
  match (enforceLimitsLoop fails order limits now).run ⟨s, [], [], ∅⟩ with
  | .ok _ p => .ok (p.stale, p.overflow) p.buffer
  | .error e p => .error e p.buffer

end

section

variable {fails : StoreAccess → Bool} {order : HashOrder} {now : Nat} {s s' : CasperBufferKeyValueStorage}
  {parent child hash : Bytes}

@[simp] theorem run_access (which : StoreAccess) :
    (access fails which).run s = if fails which then .error (.ioError which) s else .ok () s := by
  rw [access]
  cases fails which <;> rfl

theorem getOne_spec (fails : StoreAccess → Bool) (key : Bytes) (s : CasperBufferKeyValueStorage) :
    Yields (getOne fails key) s (fun found s' => found = s.parentsStore.lookup key ∧ s' = s) (fun s' => s' = s) := by
  rw [Yields, getOne, EStateM.run_bind, run_access]
  cases fails (.getOne key) with
  | true => rfl
  | false => exact ⟨rfl, rfl⟩

theorem putOne_spec (fails : StoreAccess → Bool) (key : Bytes) (parents : Finset Bytes)
    (s : CasperBufferKeyValueStorage) :
    Yields (putOne fails key parents) s
      (fun _ s' => s' = { s with parentsStore := s.parentsStore.insert key parents }) (fun s' => s' = s) := by
  rw [Yields, putOne, EStateM.run_bind, run_access]
  cases fails (.putOne key) <;> rfl

theorem put_spec (fails : StoreAccess → Bool) (rows : List (Bytes × Finset Bytes)) (s : CasperBufferKeyValueStorage) :
    Yields (put fails rows) s (fun _ s' => s' = { s with parentsStore := putRows s.parentsStore rows })
      (fun s' => s' = s) := by
  rw [Yields, put, EStateM.run_bind, run_access]
  cases fails (.put (rows.map Prod.fst)) <;> rfl

theorem delete_spec (fails : StoreAccess → Bool) (keys : List Bytes) (s : CasperBufferKeyValueStorage) :
    Yields (delete fails keys) s (fun _ s' => s' = { s with parentsStore := eraseKeys s.parentsStore keys })
      (fun s' => s' = s) := by
  rw [Yields, delete, EStateM.run_bind, run_access]
  cases fails (.delete keys) <;> rfl

theorem addRelationUnlocked_spec (fails : StoreAccess → Bool) (now : Nat) (parent child : Bytes)
    (s : CasperBufferKeyValueStorage) :
    Yields (addRelationUnlocked fails now parent child) s
      (fun _ s' => s'.blockDependencyDag = s.blockDependencyDag.add parent child ∧
        s'.parentsStore = s.parentsStore.insert child (insert parent (linksOf s.parentsStore child)))
      (fun s' => s'.blockDependencyDag = s.blockDependencyDag) := by
  refine Yields.modify_bind (Yields.modify_bind ?_)
  refine Yields.bind ((getOne_spec fails child _).imp (fun _ _ h => h) fun t ht => by rw [ht]) ?_
  rintro found t ⟨rfl, rfl⟩
  refine Yields.bind ((putOne_spec fails child _ _).imp (fun _ _ h => h) fun t ht => by rw [ht]) ?_
  rintro _ t rfl
  exact ⟨rfl, rfl⟩

def storeAfterRemoval (order : HashOrder) (hash : Bytes) (s : CasperBufferKeyValueStorage) : Links :=
  let removal := s.blockDependencyDag.remove order hash
  eraseKeys
    (putRows s.parentsStore ((order.toList removal.childrenAffected).map fun h => (h, removal.dag.parents h)))
    (order.toList removal.childrenRemoved ++ [hash] ++ order.toList removal.orphanedParents)

theorem removeUnlocked_spec (fails : StoreAccess → Bool) (order : HashOrder) (hash : Bytes)
    (s : CasperBufferKeyValueStorage) :
    Yields (removeUnlocked fails order hash) s
      (fun _ s' => s'.blockDependencyDag = (s.blockDependencyDag.remove order hash).dag ∧
        s'.parentsStore = storeAfterRemoval order hash s)
      (fun s' => s'.blockDependencyDag = (s.blockDependencyDag.remove order hash).dag) := by
  refine Yields.get_bind (Yields.modify_bind ?_)
  refine Yields.bind ((put_spec fails _ _).imp (fun _ _ h => h) fun t ht => by rw [ht]) ?_
  rintro _ t rfl
  refine Yields.modify_bind ((delete_spec fails _ _).imp ?_ fun t ht => by rw [ht])
  rintro _ t rfl
  exact ⟨rfl, rfl⟩

theorem putPendantUnlocked_spec (fails : StoreAccess → Bool) (now : Nat) (order : HashOrder) (block : Bytes)
    (s : CasperBufferKeyValueStorage) :
    Yields (putPendantUnlocked fails now order block) s
      (fun _ s' => ∃ t, t.blockDependencyDag = s.blockDependencyDag.add tempBlock block ∧
        t.parentsStore = s.parentsStore.insert block (insert tempBlock (linksOf s.parentsStore block)) ∧
        s'.blockDependencyDag = (t.blockDependencyDag.remove order tempBlock).dag ∧
        s'.parentsStore = storeAfterRemoval order tempBlock t)
      (fun s' => s'.blockDependencyDag = s.blockDependencyDag ∨
        s'.blockDependencyDag = ((s.blockDependencyDag.add tempBlock block).remove order tempBlock).dag) := by
  refine Yields.bind ((addRelationUnlocked_spec fails now tempBlock block s).imp (fun _ _ h => h) fun t ht => .inl ht) ?_
  rintro _ t ⟨hDag, hStore⟩
  refine (removeUnlocked_spec fails order tempBlock t).imp ?_ fun s' hs => ?_
  · rintro _ s' ⟨hDag', hStore'⟩
    exact ⟨t, hDag, hStore, hDag', hStore'⟩
  · rw [← hDag]
    exact .inr hs

/-- While parents are written the links stay, and only hashes that wait for nothing get an empty row. -/
def ParentsWritten (s t : CasperBufferKeyValueStorage) : Prop :=
  t.blockDependencyDag = s.blockDependencyDag ∧ ∀ k, linksOf t.parentsStore k = linksOf s.parentsStore k ∨
    k ∉ s.blockDependencyDag.childToParent ∧ linksOf t.parentsStore k = ∅

theorem pruneLeafUnlocked_spec (fails : StoreAccess → Bool) (order : HashOrder) (hash : Bytes)
    (s : CasperBufferKeyValueStorage) :
    Yields (pruneLeafUnlocked fails order hash) s
      (fun pruned s' => pruned = false ∧ s' = s ∨ pruned = true ∧ s.blockDependencyDag.children hash = ∅ ∧
        s'.blockDependencyDag = s.blockDependencyDag.pruneLeaf order hash ∧
        ∃ t, ParentsWritten s t ∧ s'.parentsStore = t.parentsStore.erase hash)
      (fun s' => s'.blockDependencyDag = s.blockDependencyDag) := by
  refine Yields.get_bind ?_
  dsimp only
  split
  · exact .inl ⟨rfl, rfl⟩
  · next hLeaf =>
    have hChildren : s.blockDependencyDag.children hash = ∅ := by
      by_contra hSome
      exact hLeaf (.inl hSome)
    refine Yields.bind (M := fun _ t => ParentsWritten s t) ?_ ?_
    · refine (Yields.forM (P := ParentsWritten s) ⟨rfl, fun _ => .inl rfl⟩ ?_).imp (fun _ _ h => h) fun _ h => h.1
      intro parent _ t ht
      split
      · next hParent =>
        refine (putOne_spec fails parent ∅ t).imp ?_ fun _ hs => hs ▸ ht
        rintro _ u rfl
        refine ⟨ht.1, fun k => ?_⟩
        rw [linksOf_insert]
        split
        · next hEq => exact .inr ⟨hEq ▸ hParent.1, rfl⟩
        · exact ht.2 k
      · exact ht
    · rintro _ t ht
      refine Yields.bind ((delete_spec fails [hash] t).imp (fun _ _ h => h) fun u hu => hu ▸ ht.1) ?_
      rintro _ u rfl
      exact .inr ⟨rfl, hChildren, rfl, t, ht, rfl⟩

end

theorem onBuffer_spec {α : Type} {x : BufferM α} {p : Pruning} {returned : α → Pruning → Prop} {failed : Pruning → Prop}
    (h : Yields x p.buffer (fun a buffer => returned a { p with buffer }) (fun buffer => failed { p with buffer })) :
    Yields (onBuffer x) p returned failed := by
  unfold Yields onBuffer EStateM.run
  unfold Yields EStateM.run at h
  cases hRun : x p.buffer with
  | ok a buffer =>
    rw [hRun] at h
    simpa only [hRun] using h
  | error e buffer =>
    rw [hRun] at h
    simpa only [hRun] using h

section

variable {fails : StoreAccess → Bool} {order : HashOrder} {limits : PruneLimits} {P F : Pruning → Prop}
  (hFailed : ∀ p, P p → F p) (hTried : ∀ p tried, P p → P { p with tried })
  (hLeaf : ∀ p hash staleRoot, P p → Yields (pruneLeafUnlocked fails order hash) p.buffer
    (fun pruned buffer => P (if pruned then record staleRoot hash { p with buffer } else { p with buffer }))
    fun buffer => F { p with buffer })

include hTried hLeaf

theorem pruneSubtree_spec {staleRoot : Bool} {hashes : List Bytes} {p : Pruning} (h : P p) :
    Yields (pruneSubtree fails order limits staleRoot hashes) p (fun _ => P) F := by
  induction hashes generalizing p with
  | nil => exact h
  | cons hash hashes ih =>
    refine Yields.get_bind ?_
    dsimp only
    split
    · exact h
    · refine Yields.modify_bind ?_
      have hNext := hTried p (insert hash p.tried) h
      split
      · refine Yields.bind (M := fun pruned q => P (if pruned then record staleRoot hash q else q))
          (onBuffer_spec (hLeaf _ hash staleRoot hNext)) ?_
        intro pruned q hq
        cases pruned with
        | true => exact Yields.modify_bind (ih hq)
        | false => exact ih hq
      · exact ih hNext

theorem pruneRoots_spec {roots : List (Nat × Bytes)} {p : Pruning} (h : P p) :
    Yields (pruneRoots fails order limits roots) p (fun _ => P) F := by
  induction roots generalizing p with
  | nil => exact h
  | cons head roots ih =>
    refine Yields.get_bind ?_
    dsimp only
    split
    · exact h
    · split
      · exact Yields.bind (pruneSubtree_spec hTried hLeaf h) fun _ _ => ih
      · exact ih h

theorem enforceLimitsLoop_spec {now : Nat} {p : Pruning} (h : P p)
    (hLast : ∀ p, P p → P { p with buffer := { p.buffer with lastPruneMs := now } }) :
    Yields (enforceLimitsLoop fails order limits now) p (fun _ => P) F := by
  refine Yields.get_bind ?_
  dsimp only
  split
  · exact h
  · exact Yields.modify_bind (pruneRoots_spec hTried hLeaf (hLast p h))

end

inductive Call where
  | addRelation (parent child : Bytes)
  | putPendant (block : Bytes)
  | remove (hash : Bytes)
  | enforceLimits (limits : PruneLimits)

/-- A call at a time, with the accesses to the store that fail in it. -/
structure Issued where
  call : Call
  now : Nat
  fails : StoreAccess → Bool

def perform (order : HashOrder) (i : Issued) : BufferM Unit :=
  match i.call with
  | .addRelation parent child => addRelationUnlocked i.fails i.now parent child
  | .putPendant block => putPendantUnlocked i.fails i.now order block
  | .remove hash => removeUnlocked i.fails order hash
  | .enforceLimits limits => do
    let _ ← enforceLimitsWithReadiness i.fails order limits i.now

def prunedBy (order : HashOrder) (i : Issued) (limits : PruneLimits) (s : CasperBufferKeyValueStorage) : List Bytes :=
  let p := final ((enforceLimitsLoop i.fails order limits i.now).run ⟨s, [], [], ∅⟩)
  p.stale ++ p.overflow

theorem perform_enforceLimits_spec {order : HashOrder} {limits : PruneLimits} {now : Nat} {fails : StoreAccess → Bool}
    {s : CasperBufferKeyValueStorage} {Q F : CasperBufferKeyValueStorage → Prop}
    (h : Yields (enforceLimitsLoop fails order limits now) ⟨s, [], [], ∅⟩ (fun _ p => Q p.buffer) fun p => F p.buffer) :
    Yields (perform order ⟨.enforceLimits limits, now, fails⟩) s (fun _ => Q) F := by
  have hCall : Yields (enforceLimitsWithReadiness fails order limits now) s (fun _ => Q) F := by
    unfold Yields enforceLimitsWithReadiness EStateM.run
    unfold Yields EStateM.run at h
    cases hRun : enforceLimitsLoop fails order limits now ⟨s, [], [], ∅⟩ with
    | ok _ p =>
      rw [hRun] at h
      simpa only [EStateM.run, hRun] using h
    | error e p =>
      rw [hRun] at h
      simpa only [EStateM.run, hRun] using h
  exact Yields.bind hCall fun _ _ hQ => hQ

theorem final_perform_enforceLimits (order : HashOrder) (limits : PruneLimits) (now : Nat) (fails : StoreAccess → Bool)
    (s : CasperBufferKeyValueStorage) :
    final ((perform order ⟨.enforceLimits limits, now, fails⟩).run s) =
      (final ((enforceLimitsLoop fails order limits now).run ⟨s, [], [], ∅⟩)).buffer := by
  refine Yields.final (P := (· = _)) (perform_enforceLimits_spec ?_)
  rw [Yields]
  cases (enforceLimitsLoop fails order limits now).run ⟨s, [], [], ∅⟩ <;> rfl

def restoreRow (order : HashOrder) (bdd : BlockDependencyDag) (row : Bytes × Finset Bytes) : BlockDependencyDag :=
  if row.2 = ∅ then { bdd with dependencyFree := insert row.1 bdd.dependencyFree }
  else (order.toList row.2).foldl (fun bdd parent => bdd.add parent row.1) bdd

def newFromKvStore (order : HashOrder) (now : Nat) (store : Links) (rows : List (Bytes × Finset Bytes)) :
    CasperBufferKeyValueStorage :=
  let dag := rows.foldl (restoreRow order) BlockDependencyDag.empty
  { parentsStore := store
    blockDependencyDag := dag
    firstSeenMs := (order.toList (dag.childToParent.keys ∪ dag.dependencyFree)).foldl (fun seen h => seen.insert h now) ∅
    lastPruneMs := 0
    released := ∅ }

/-- `to_map` in some order. -/
structure RowsOf (store : Links) (rows : List (Bytes × Finset Bytes)) : Prop where
  nodup : (rows.map Prod.fst).Nodup
  mem_iff : ∀ key parents, (key, parents) ∈ rows ↔ store.lookup key = some parents

end F1r3Node.CasperBuffer
