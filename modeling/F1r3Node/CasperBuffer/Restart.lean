import F1r3Node.CasperBuffer.BufferStorage

/-! # Restarting the Casper buffer

The rows of the store follow the parents in memory through every call, except where a removal deletes the row of a
parent that lost its last child and still waits itself.
-/

namespace F1r3Node.CasperBuffer

open Shared Lib.Stateful BlockDependencyDag
open DagStorage (HashOrder)

variable {order : HashOrder} {s s' : CasperBufferKeyValueStorage} {dag : BlockDependencyDag} {h hash k : Bytes}

theorem linksOf_putRows (store : Links) (hashes : List Bytes) (value : Bytes → Finset Bytes) (k : Bytes) :
    linksOf (putRows store (hashes.map fun h => (h, value h))) k = if k ∈ hashes then value k else linksOf store k := by
  induction hashes generalizing store with
  | nil => simp [putRows]
  | cons head hashes ih =>
    have hStep := ih (store.insert head (value head))
    rw [putRows] at hStep ⊢
    rw [List.map_cons, List.foldl_cons, hStep, linksOf_insert]
    by_cases hMem : k ∈ hashes
    · simp [hMem]
    · by_cases hEq : k = head <;> simp [hMem, hEq]

theorem linksOf_eraseKeys (store : Links) (keys : List Bytes) (k : Bytes) :
    linksOf (eraseKeys store keys) k = if k ∈ keys then ∅ else linksOf store k := by
  induction keys generalizing store with
  | nil => simp [eraseKeys]
  | cons key keys ih =>
    have hStep := ih (store.erase key)
    rw [eraseKeys] at hStep ⊢
    rw [List.foldl_cons, hStep, linksOf, lookup_erase_eq]
    by_cases hMem : k ∈ keys
    · simp [hMem]
    · by_cases hEq : k = key <;> simp [hMem, hEq, linksOf]

structure Synced (s : CasperBufferKeyValueStorage) : Prop where
  linked : Linked s.blockDependencyDag
  parents_eq : ∀ k, linksOf s.parentsStore k = s.blockDependencyDag.parents k

def SparesWaiting (dag : BlockDependencyDag) (element : Bytes) : Prop :=
  ∀ p ≠ element, dag.children p = {element} → dag.parents p ⊆ {element}

theorem parents_remove (hLinked : Linked dag) (order : HashOrder) (element k : Bytes) :
    (dag.remove order element).dag.parents k = if k = element then ∅ else (dag.parents k).erase element := by
  rw [parents, linksOf, lookup_childToParent_remove order element hLinked]
  split
  · rfl
  · ext x
    rw [mem_linksOf_bind, Finset.mem_erase, and_comm]
    rfl

theorem parents_add (dag : BlockDependencyDag) (parent child k : Bytes) :
    (dag.add parent child).parents k = if k = child then insert parent (dag.parents child) else dag.parents k :=
  linksOf_insert _ _ _ _

theorem children_add (dag : BlockDependencyDag) (parent child k : Bytes) :
    (dag.add parent child).children k = if k = parent then insert child (dag.children parent) else dag.children k :=
  linksOf_insert _ _ _ _

theorem linksOf_storeAfterRemoval (hSynced : Synced s) (hSpares : SparesWaiting s.blockDependencyDag hash) (k : Bytes) :
    linksOf (storeAfterRemoval order hash s) k = (s.blockDependencyDag.remove order hash).dag.parents k := by
  obtain ⟨-, hRemoved, hAffected⟩ := mem_relieved order hash hSynced.linked k
  have hOrphaned := mem_orphaned order hash hSynced.linked (h := k)
  rw [storeAfterRemoval, linksOf_eraseKeys, linksOf_putRows]
  simp only [List.mem_append, List.mem_singleton, order.mem_toList, hRemoved, hAffected, hOrphaned]
  rw [parents_remove hSynced.linked]
  obtain rfl | hNe := eq_or_ne k hash
  · simp
  · by_cases hMem : hash ∈ s.blockDependencyDag.parents k
    · by_cases hSingle : s.blockDependencyDag.parents k = {hash}
      · simp [hNe, hSingle]
      · -- the row is rewritten, and it is not deleted since the block still waits for another one
        have hChildren : s.blockDependencyDag.children k ≠ {hash} := by
          intro hOnly
          have hSub := hSpares k hNe hOnly
          exact hSingle (Finset.Subset.antisymm hSub (Finset.singleton_subset_iff.mpr hMem))
        simp [hNe, hSingle, hMem, hChildren]
    · have hSingle : s.blockDependencyDag.parents k ≠ {hash} := by
        intro hEq
        exact hMem (by simp [hEq])
      by_cases hChildren : s.blockDependencyDag.children k = {hash}
      · -- the row is deleted, and nothing was in it
        have hNone : s.blockDependencyDag.parents k = ∅ := by
          refine Finset.eq_empty_of_forall_notMem fun x hx => ?_
          rw [Finset.mem_singleton.mp (hSpares k hNe hChildren hx)] at hx
          exact hMem hx
        simp [hNe, hChildren, hNone]
      · simp [hNe, hSingle, hMem, hChildren, hSynced.parents_eq]

theorem Synced.add (hSynced : Synced s) {parent child : Bytes}
    (hDag : s'.blockDependencyDag = s.blockDependencyDag.add parent child)
    (hStore : s'.parentsStore = s.parentsStore.insert child (insert parent (linksOf s.parentsStore child))) :
    Synced s' where
  linked := by
    rw [hDag]
    exact hSynced.linked.add parent child
  parents_eq k := by
    rw [hDag, hStore, linksOf_insert, parents_add, hSynced.parents_eq, hSynced.parents_eq]

theorem Synced.remove (hSynced : Synced s) (hSpares : SparesWaiting s.blockDependencyDag hash)
    (hDag : s'.blockDependencyDag = (s.blockDependencyDag.remove order hash).dag)
    (hStore : s'.parentsStore = storeAfterRemoval order hash s) : Synced s' where
  linked := by
    rw [hDag]
    exact hSynced.linked.remove order hash
  parents_eq k := by
    rw [hDag, hStore, linksOf_storeAfterRemoval hSynced hSpares]

theorem SparesWaiting.add_self {element : Bytes} (hSpares : SparesWaiting dag element) (child : Bytes) :
    SparesWaiting (dag.add element child) element := by
  intro p hNe hChildren
  rw [children_add, if_neg hNe] at hChildren
  have hSub := hSpares p hNe hChildren
  rw [parents_add]
  split
  · next hEq =>
    rw [← hEq]
    exact Finset.insert_subset (Finset.mem_singleton_self element) hSub
  · exact hSub

theorem Synced.pruneLeaf (hSynced : Synced s) (hLeaf : s.blockDependencyDag.children hash = ∅)
    (hDag : s'.blockDependencyDag = s.blockDependencyDag.pruneLeaf order hash) {t : CasperBufferKeyValueStorage}
    (hWritten : ParentsWritten s t) (hStore : s'.parentsStore = t.parentsStore.erase hash) : Synced s' where
  linked := by
    rw [hDag]
    have hLinked := hSynced.linked.remove order hash
    exact ⟨hLinked.mirror, hLinked.children_ne_empty, hLinked.parents_ne_empty⟩
  parents_eq k := by
    have hParents : s'.blockDependencyDag.parents k = (s.blockDependencyDag.remove order hash).dag.parents k := by
      rw [hDag]
      rfl
    have hNot : hash ∉ s.blockDependencyDag.parents k := by
      rw [← hSynced.linked.mirror, hLeaf]
      exact Finset.notMem_empty k
    rw [hParents, parents_remove hSynced.linked, hStore, linksOf, lookup_erase_eq]
    split
    · rfl
    · rw [Finset.erase_eq_of_notMem hNot, ← linksOf]
      rcases hWritten.2 k with hSame | ⟨hAbsent, hEmpty⟩
      · rw [hSame, hSynced.parents_eq]
      · rw [hEmpty, parents, linksOf, Finmap.lookup_eq_none.mpr hAbsent, Option.getD_none]

/-- What a call has to leave alone: its removal, if it makes one, deletes no row that is still needed. -/
def KeepsRows (dag : BlockDependencyDag) : Call → Prop
  | .addRelation .. => True
  | .putPendant _ => SparesWaiting dag tempBlock
  | .remove hash => SparesWaiting dag hash
  | .enforceLimits _ => True

theorem Synced.perform {i : Issued} (hSynced : Synced s) (hKeeps : KeepsRows s.blockDependencyDag i.call)
    (hRun : (perform order i).run s = .ok () s') : Synced s' := by
  obtain ⟨call, now, fails⟩ := i
  cases call with
  | addRelation parent child =>
    obtain ⟨hDag, hStore⟩ := (addRelationUnlocked_spec fails now parent child s).of_ok hRun
    exact hSynced.add hDag hStore
  | putPendant block =>
    obtain ⟨t, hDag, hStore, hDag', hStore'⟩ := (putPendantUnlocked_spec fails now order block s).of_ok hRun
    have hMiddle := hSynced.add hDag hStore
    refine hMiddle.remove ?_ hDag' hStore'
    rw [hDag]
    exact hKeeps.add_self block
  | remove hash =>
    obtain ⟨hDag, hStore⟩ := (removeUnlocked_spec fails order hash s).of_ok hRun
    exact hSynced.remove hKeeps hDag hStore
  | enforceLimits limits =>
    have hLoop : Yields (enforceLimitsLoop fails order limits now) ⟨s, [], [], ∅⟩ (fun _ p => Synced p.buffer)
        fun _ => True := by
      refine enforceLimitsLoop_spec (fun p tried h => h) ?_ hSynced fun p h => ⟨h.linked, h.parents_eq⟩
      intro p hash staleRoot h
      refine (pruneLeafUnlocked_spec fails order hash p.buffer).imp ?_ fun _ _ => trivial
      rintro _ buffer (⟨rfl, rfl⟩ | ⟨rfl, hLeaf, hDag, t, hWritten, hStore⟩)
      · exact h
      · have hPruned : Synced buffer := h.pruneLeaf hLeaf hDag hWritten hStore
        cases staleRoot <;> exact hPruned
    exact (perform_enforceLimits_spec (F := fun _ => True) hLoop).of_ok hRun

theorem mem_parents_foldl_add (hashes : List Bytes) (dag : BlockDependencyDag) (key k x : Bytes) :
    x ∈ (hashes.foldl (fun bdd parent => bdd.add parent key) dag).parents k ↔
      x ∈ dag.parents k ∨ k = key ∧ x ∈ hashes := by
  induction hashes generalizing dag with
  | nil => simp
  | cons parent hashes ih =>
    rw [List.foldl_cons, ih, parents_add]
    obtain rfl | hNe := eq_or_ne k key
    · simp only [if_true, Finset.mem_insert, List.mem_cons, true_and]
      tauto
    · simp [hNe]

theorem mem_parents_restoreRow (dag : BlockDependencyDag) (row : Bytes × Finset Bytes) (k x : Bytes) :
    x ∈ (restoreRow order dag row).parents k ↔ x ∈ dag.parents k ∨ k = row.1 ∧ x ∈ row.2 := by
  rw [restoreRow]
  split
  · next hEmpty =>
    rw [hEmpty]
    simp [parents]
  · rw [mem_parents_foldl_add, order.mem_toList]

namespace BlockDependencyDag

variable {b : Bytes}

def Holds (dag : BlockDependencyDag) (b : Bytes) : Prop := b ∈ dag.childToParent ∨ b ∈ dag.dependencyFree

instance (dag : BlockDependencyDag) (b : Bytes) : Decidable (dag.Holds b) :=
  inferInstanceAs (Decidable (b ∈ dag.childToParent ∨ b ∈ dag.dependencyFree))

theorem holds_add_child (dag : BlockDependencyDag) (parent child : Bytes) : (dag.add parent child).Holds child :=
  .inl (Finmap.mem_insert.mpr (.inl rfl))

theorem Holds.add (h : dag.Holds b) (parent child : Bytes) : (dag.add parent child).Holds b := by
  obtain rfl | hNe := eq_or_ne b child
  · exact holds_add_child dag parent b
  · rcases h with hWaits | hFree
    · exact .inl (Finmap.mem_insert.mpr (.inr hWaits))
    · refine .inr (Finset.mem_erase.mpr ⟨hNe, ?_⟩)
      split
      · exact hFree
      · exact Finset.mem_insert_of_mem hFree

end BlockDependencyDag

theorem BlockDependencyDag.parents_of_notMem {x : Bytes} (h : x ∉ dag.childToParent) : dag.parents x = ∅ := by
  rw [parents, linksOf, Finmap.lookup_eq_none.mpr h]
  rfl

/-- A block on offer waits for nothing, and one that others wait for is in the buffer. -/
structure Scheduled (dag : BlockDependencyDag) : Prop where
  linked : Linked dag
  free : ∀ x ∈ dag.dependencyFree, dag.parents x = ∅
  held : ∀ x c, c ∈ dag.children x → dag.Holds x

theorem Scheduled.add (h : Scheduled dag) (parent child : Bytes) : Scheduled (dag.add parent child) where
  linked := h.linked.add parent child
  free x hx := by
    obtain ⟨hNe, hx⟩ := Finset.mem_erase.mp hx
    rw [parents_add, if_neg hNe]
    split at hx
    · exact h.free x hx
    · next hNot =>
      obtain rfl | hx := Finset.mem_insert.mp hx
      · exact parents_of_notMem fun hMem => hNot (Finmap.mem_insert.mpr (.inr hMem))
      · exact h.free x hx
  held x c hc := by
    rw [children_add] at hc
    by_cases hEq : x = parent
    · subst hEq
      by_cases hMem : x ∈ (dag.add x child).childToParent
      · exact .inl hMem
      · refine .inr (Finset.mem_erase.mpr ⟨fun hEq => hMem (Finmap.mem_insert.mpr (.inl hEq)), ?_⟩)
        split
        · next hIn => exact absurd hIn hMem
        · exact Finset.mem_insert_self _ _
    · rw [if_neg hEq] at hc
      exact (h.held x c hc).add parent child

variable {rows : List (Bytes × Finset Bytes)}

theorem Scheduled.restore (h : Scheduled dag) (hNodup : (rows.map Prod.fst).Nodup)
    (hFresh : ∀ row ∈ rows, dag.parents row.1 = ∅) : Scheduled (rows.foldl (restoreRow order) dag) := by
  induction rows generalizing dag with
  | nil => exact h
  | cons row rows ih =>
    obtain ⟨hNot, hNodup⟩ := List.nodup_cons.mp hNodup
    have hKey := hFresh row List.mem_cons_self
    refine ih ?_ hNodup fun row' hRow' => ?_
    · rw [restoreRow]
      split
      · refine ⟨⟨h.linked.mirror, h.linked.children_ne_empty, h.linked.parents_ne_empty⟩, fun x hx => ?_, fun x c hc =>
          (h.held x c hc).imp_right (Finset.mem_insert_of_mem ·)⟩
        obtain rfl | hx := Finset.mem_insert.mp hx
        · exact hKey
        · exact h.free x hx
      · exact List.foldlRecOn _ _ h fun _ h parent _ => h.add parent row.1
    · refine Finset.eq_empty_of_forall_notMem fun x hx => ?_
      obtain hx | ⟨hEq, -⟩ := (mem_parents_restoreRow dag row row'.1 x).mp hx
      · exact absurd hx (hFresh row' (List.mem_cons_of_mem row hRow') ▸ Finset.notMem_empty x)
      · exact hNot (hEq ▸ List.mem_map_of_mem hRow')

theorem mem_parents_restore (rows : List (Bytes × Finset Bytes)) (dag : BlockDependencyDag) (k x : Bytes) :
    x ∈ (rows.foldl (restoreRow order) dag).parents k ↔ x ∈ dag.parents k ∨ ∃ ps, (k, ps) ∈ rows ∧ x ∈ ps := by
  induction rows generalizing dag with
  | nil => simp
  | cons row rows ih =>
    obtain ⟨key, values⟩ := row
    rw [List.foldl_cons, ih, mem_parents_restoreRow]
    constructor
    · rintro ((hOld | ⟨rfl, hx⟩) | ⟨ps, hMem, hx⟩)
      · exact .inl hOld
      · exact .inr ⟨values, List.mem_cons_self, hx⟩
      · exact .inr ⟨ps, List.mem_cons_of_mem _ hMem, hx⟩
    · rintro (hOld | ⟨ps, hMem, hx⟩)
      · exact .inl (.inl hOld)
      · rcases List.mem_cons.mp hMem with hEq | hMem
        · obtain ⟨rfl, rfl⟩ := Prod.mk.inj hEq
          exact .inl (.inr ⟨rfl, hx⟩)
        · exact .inr ⟨ps, hMem, hx⟩

theorem scheduled_newFromKvStore {store : Links} (hRows : RowsOf store rows)
    (now : Nat) : Scheduled (newFromKvStore order now store rows).blockDependencyDag := by
  have hEmpty : Scheduled BlockDependencyDag.empty :=
    ⟨linked_empty, fun _ hx => absurd hx (Finset.notMem_empty _), fun _ _ hc => absurd hc (Finset.notMem_empty _)⟩
  exact hEmpty.restore hRows.nodup fun _ _ => rfl

theorem synced_newFromKvStore {store : Links} (hRows : RowsOf store rows) (now : Nat) :
    Synced (newFromKvStore order now store rows) where
  linked := (scheduled_newFromKvStore hRows now).linked
  parents_eq k := by
    ext x
    rw [newFromKvStore, mem_parents_restore, linksOf]
    constructor
    · intro hx
      cases hEntry : store.lookup k with
      | none => simp [hEntry] at hx
      | some values =>
        rw [hEntry, Option.getD_some] at hx
        exact .inr ⟨values, (hRows.mem_iff k values).mpr hEntry, hx⟩
    · rintro (hNone | ⟨ps, hMem, hx⟩)
      · simp [parents, linksOf, empty] at hNone
      · rw [(hRows.mem_iff k ps).mp hMem]
        exact hx

def Started (s : CasperBufferKeyValueStorage) : Prop :=
  ∃ order now store rows, RowsOf store rows ∧ s = newFromKvStore order now store rows

def Returns (order : HashOrder) (s s' : CasperBufferKeyValueStorage) : Prop :=
  ∃ i : Issued, (perform order i).run s = .ok () s'

def ReturnsKeepingRows (order : HashOrder) (s s' : CasperBufferKeyValueStorage) : Prop :=
  ∃ i : Issued, KeepsRows s.blockDependencyDag i.call ∧ (perform order i).run s = .ok () s'

theorem Started.synced (h : Started s) : Synced s := by
  obtain ⟨order, now, store, rows, hRows, rfl⟩ := h
  exact synced_newFromKvStore hRows now

theorem Started.synced_of_run (h : Started s) (hRun : Relation.ReflTransGen (ReturnsKeepingRows order) s s') :
    Synced s' := by
  induction hRun with
  | refl => exact h.synced
  | tail _ hStep ih =>
    obtain ⟨i, hKeeps, hRun⟩ := hStep
    exact ih.perform hKeeps hRun

theorem BlockDependencyDag.Linked.childToParent_eq {dag dag' : BlockDependencyDag} (h : Linked dag) (h' : Linked dag')
    (hParents : ∀ k, dag.parents k = dag'.parents k) : dag.childToParent = dag'.childToParent := by
  refine Finmap.ext_lookup fun k => ?_
  have hEq := hParents k
  have hSome := h.parents_ne_empty k
  have hSome' := h'.parents_ne_empty k
  rw [parents, parents, linksOf, linksOf] at hEq
  cases hEntry : dag.childToParent.lookup k <;> cases hEntry' : dag'.childToParent.lookup k <;>
    simp_all

theorem restart_childToParent_eq {start : CasperBufferKeyValueStorage} (hStart : Started start)
    (hRun : Relation.ReflTransGen (ReturnsKeepingRows order) start s) {rows : List (Bytes × Finset Bytes)}
    (hRows : RowsOf s.parentsStore rows) (order' : HashOrder) (now : Nat) :
    (newFromKvStore order' now s.parentsStore rows).blockDependencyDag.childToParent =
      s.blockDependencyDag.childToParent := by
  have hLive := hStart.synced_of_run hRun
  have hRestarted : Synced (newFromKvStore order' now s.parentsStore rows) := synced_newFromKvStore hRows now
  refine hRestarted.linked.childToParent_eq hLive.linked fun k => ?_
  rw [← hRestarted.parents_eq, ← hLive.parents_eq]
  rfl

def issue (call : Call) : Issued := ⟨call, 0, fun _ => false⟩

def emptyBuffer : CasperBufferKeyValueStorage := newFromKvStore .ascending 0 ∅ []

def afterCalls (calls : List Call) : CasperBufferKeyValueStorage :=
  calls.foldl (fun s call => final ((perform .ascending (issue call)).run s)) emptyBuffer

theorem rowsOf_nil : RowsOf ∅ [] := ⟨List.nodup_nil, fun _ _ => by simp⟩

theorem started_emptyBuffer : Started emptyBuffer := ⟨.ascending, 0, ∅, [], rowsOf_nil, rfl⟩

/-- The second block waits for the first one and the third for the second; then the third is removed. -/
theorem waitingParent_forgotten :
    ∃ s, Relation.ReflTransGen (Returns .ascending) emptyBuffer s ∧ RowsOf s.parentsStore [] ∧
      s.blockDependencyDag.parents [2] = {[1]} ∧
      (newFromKvStore .ascending 0 s.parentsStore []).blockDependencyDag.parents [2] = ∅ := by
  have hEmpty : (afterCalls [.addRelation [1] [2], .addRelation [2] [3], .remove [3]]).parentsStore = ∅ := by decide
  refine ⟨afterCalls [.addRelation [1] [2], .addRelation [2] [3], .remove [3]], ?_, ?_, by decide, by decide⟩
  · exact .head ⟨issue (.addRelation [1] [2]), rfl⟩
      (.head ⟨issue (.addRelation [2] [3]), rfl⟩ (.single ⟨issue (.remove [3]), rfl⟩))
  · rw [hEmpty]
    exact rowsOf_nil

theorem sparesWaiting_of_parents_eq_empty (hLinked : Linked dag) (hNone : dag.parents hash = ∅) :
    SparesWaiting dag hash := by
  intro p _ hChildren
  have hMem := (hLinked.mirror p hash).mp (by simp [hChildren])
  rw [hNone] at hMem
  exact absurd hMem (Finset.notMem_empty p)

/-- The first block, which has arrived, is removed instead; the third still waits after a restart. -/
theorem arrivedParent_restart :
    (newFromKvStore .ascending 0 (afterCalls [.addRelation [1] [2], .addRelation [2] [3], .remove [1]]).parentsStore
      [([3], {[2]})]).blockDependencyDag.childToParent =
    (afterCalls [.addRelation [1] [2], .addRelation [2] [3], .remove [1]]).blockDependencyDag.childToParent := by
  have hStore : (afterCalls [.addRelation [1] [2], .addRelation [2] [3], .remove [1]]).parentsStore =
      (∅ : Links).insert [3] {[2]} := by decide
  have hSpares : SparesWaiting ((empty.add [1] [2]).add [2] [3]) [1] :=
    sparesWaiting_of_parents_eq_empty ((linked_empty.add [1] [2]).add [2] [3]) (by decide)
  have hRun : Relation.ReflTransGen (ReturnsKeepingRows .ascending) emptyBuffer
      (afterCalls [.addRelation [1] [2], .addRelation [2] [3], .remove [1]]) :=
    .head ⟨issue (.addRelation [1] [2]), trivial, rfl⟩
      (.head ⟨issue (.addRelation [2] [3]), trivial, rfl⟩ (.single ⟨issue (.remove [1]), hSpares, rfl⟩))
  refine restart_childToParent_eq started_emptyBuffer hRun ?_ .ascending 0
  rw [hStore]
  refine ⟨List.nodup_singleton _, fun key values => ?_⟩
  rw [lookup_insert_eq, List.mem_singleton, Prod.mk.injEq]
  split
  · next hEq => simp [hEq, eq_comm]
  · next hNe => simp [hNe]

end F1r3Node.CasperBuffer
