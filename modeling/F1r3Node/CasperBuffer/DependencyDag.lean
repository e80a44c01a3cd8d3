import F1r3Node.DagStorage.BlockDagStorage
import Mathlib.Data.Finmap

/-! # The dependency DAG of the Casper buffer

Two tables hold the links between blocks in both directions, and a set holds the blocks that wait for nothing.
Sets are gone through in the order their hash table gives.
-/

namespace F1r3Node.CasperBuffer

open Shared
open DagStorage (HashOrder)

abbrev Links := Finmap fun _ : Bytes => Finset Bytes

/-- `get(..).cloned().unwrap_or_default()`. -/
def linksOf (links : Links) (hash : Bytes) : Finset Bytes := (links.lookup hash).getD ∅

theorem lookup_insert_eq (links : Links) (hash h : Bytes) (values : Finset Bytes) :
    (links.insert hash values).lookup h = if h = hash then some values else links.lookup h := by
  split
  · next hEq => rw [hEq, Finmap.lookup_insert]
  · next hNe => rw [Finmap.lookup_insert_of_ne _ hNe]

theorem lookup_erase_eq (links : Links) (hash h : Bytes) :
    (links.erase hash).lookup h = if h = hash then none else links.lookup h := by
  split
  · next hEq => rw [hEq, Finmap.lookup_erase]
  · next hNe => rw [Finmap.lookup_erase_ne hNe]

theorem linksOf_insert (links : Links) (hash h : Bytes) (values : Finset Bytes) :
    linksOf (links.insert hash values) h = if h = hash then values else linksOf links h := by
  rw [linksOf, lookup_insert_eq]
  split
  · rfl
  · rw [linksOf]

structure BlockDependencyDag where
  parentToChild : Links
  childToParent : Links
  dependencyFree : Finset Bytes

namespace BlockDependencyDag

def empty : BlockDependencyDag := ⟨∅, ∅, ∅⟩

variable (dag : BlockDependencyDag)

def children (hash : Bytes) : Finset Bytes := linksOf dag.parentToChild hash

def parents (hash : Bytes) : Finset Bytes := linksOf dag.childToParent hash

def add (parent child : Bytes) : BlockDependencyDag :=
  let parentToChild := dag.parentToChild.insert parent (insert child (dag.children parent))
  let childToParent := dag.childToParent.insert child (insert parent (dag.parents child))
  let dependencyFree := if parent ∈ childToParent then dag.dependencyFree else insert parent dag.dependencyFree
  ⟨parentToChild, childToParent, dependencyFree.erase child⟩

/-- What the first loop of `remove` works on. -/
structure Unlinked where
  parentToChild : Links
  dependencyFree : Finset Bytes
  orphanedParents : Finset Bytes

def unlinkParent (element : Bytes) (acc : Unlinked) (parent : Bytes) : Unlinked :=
  match acc.parentToChild.lookup parent with
  | none => acc
  | some children =>
    if children.erase element = ∅ then
      ⟨acc.parentToChild.erase parent, acc.dependencyFree.erase parent, insert parent acc.orphanedParents⟩
    else { acc with parentToChild := acc.parentToChild.insert parent (children.erase element) }

structure Relieved where
  childToParent : Links
  newDependencyFree : Finset Bytes
  childrenAffected : Finset Bytes
  childrenRemoved : Finset Bytes

def relieveChild (element : Bytes) (acc : Relieved) (child : Bytes) : Relieved :=
  let updatedParents := (linksOf acc.childToParent child).filter (· ≠ element)
  if updatedParents = ∅ then
    ⟨acc.childToParent.erase child, insert child acc.newDependencyFree, acc.childrenAffected,
      insert child acc.childrenRemoved⟩
  else { acc with
    childToParent := acc.childToParent.insert child updatedParents
    childrenAffected := insert child acc.childrenAffected }

structure Removal where
  dag : BlockDependencyDag
  childrenAffected : Finset Bytes
  childrenRemoved : Finset Bytes
  orphanedParents : Finset Bytes

variable (order : HashOrder) (element : Bytes)

def unlinked : Unlinked :=
  (order.toList (dag.parents element)).foldl (unlinkParent element) ⟨dag.parentToChild, dag.dependencyFree, ∅⟩

def relieved : Relieved :=
  (order.toList (linksOf (dag.unlinked order element).parentToChild element)).foldl (relieveChild element)
    ⟨dag.childToParent.erase element, ∅, ∅, ∅⟩

def remove : Removal :=
  let up := dag.unlinked order element
  let down := dag.relieved order element
  let dependencyFree := (up.dependencyFree ∪ down.newDependencyFree).erase element
  { dag :=
      { parentToChild := up.parentToChild.erase element
        childToParent := down.childToParent
        dependencyFree := dependencyFree.filter fun h => ¬ (h ∈ up.orphanedParents ∧ h ∉ down.childToParent) }
    childrenAffected := down.childrenAffected
    childrenRemoved := down.childrenRemoved
    orphanedParents := up.orphanedParents }

variable {dag order element} {parent child h : Bytes} {hashes : List Bytes}

def LastChild (element : Bytes) (links : Links) (parent : Bytes) : Prop :=
  ∃ children, links.lookup parent = some children ∧ children.erase element = ∅

def without (element : Bytes) (children : Finset Bytes) : Option (Finset Bytes) :=
  if children.erase element = ∅ then none else some (children.erase element)

theorem without_eq_some {children rest : Finset Bytes} :
    without element children = some rest ↔ rest = children.erase element ∧ rest ≠ ∅ := by
  rw [without]
  split
  · next hEmpty => simp [hEmpty]
  · next hSome =>
    rw [Option.some.injEq]
    constructor
    · rintro rfl
      exact ⟨rfl, hSome⟩
    · rintro ⟨rfl, -⟩
      rfl

variable {links : Links}

theorem lastChild_of_lookup {children : Finset Bytes} (hEntry : links.lookup parent = some children) :
    LastChild element links parent ↔ children.erase element = ∅ := by
  rw [LastChild, hEntry]
  constructor
  · rintro ⟨_, hSame, hEmpty⟩
    rw [Option.some.inj hSame]
    exact hEmpty
  · exact fun hEmpty => ⟨children, rfl, hEmpty⟩

theorem mem_orphanedParents_unlinkParent (element : Bytes) (acc : Unlinked) (parent h : Bytes) :
    h ∈ (unlinkParent element acc parent).orphanedParents ↔
      h ∈ acc.orphanedParents ∨ h = parent ∧ LastChild element acc.parentToChild parent := by
  rw [unlinkParent]
  split
  next hNone => simp [LastChild, hNone]
  next children hSome =>
    rw [lastChild_of_lookup hSome]
    split
    · next hEmpty => simp [hEmpty, or_comm]
    · next hLeft => simp [hLeft]

theorem mem_dependencyFree_unlinkParent (element : Bytes) (acc : Unlinked) (parent h : Bytes) :
    h ∈ (unlinkParent element acc parent).dependencyFree ↔
      h ∈ acc.dependencyFree ∧ ¬ (h = parent ∧ LastChild element acc.parentToChild parent) := by
  rw [unlinkParent]
  split
  next hNone => simp [LastChild, hNone]
  next children hSome =>
    rw [lastChild_of_lookup hSome]
    split
    · next hEmpty => simp [hEmpty, and_comm]
    · next hLeft => simp [hLeft]

theorem lookup_unlinkParent (element : Bytes) (acc : Unlinked) (parent h : Bytes) :
    (unlinkParent element acc parent).parentToChild.lookup h =
      if h = parent then (acc.parentToChild.lookup h).bind (without element) else acc.parentToChild.lookup h := by
  rw [unlinkParent]
  obtain rfl | hNe := eq_or_ne h parent
  · cases hEntry : acc.parentToChild.lookup h with
    | none => simp [hEntry]
    | some children => by_cases hEmpty : children.erase element = ∅ <;> simp [without, hEmpty]
  · rw [if_neg hNe]
    split
    next => rfl
    next children _ =>
      split
      · exact Finmap.lookup_erase_ne hNe
      · exact Finmap.lookup_insert_of_ne _ hNe

theorem foldl_unlinkParent (element : Bytes) (hNodup : hashes.Nodup) (acc : Unlinked) :
    (∀ h, (hashes.foldl (unlinkParent element) acc).parentToChild.lookup h =
      if h ∈ hashes then (acc.parentToChild.lookup h).bind (without element) else acc.parentToChild.lookup h) ∧
    (∀ h, h ∈ (hashes.foldl (unlinkParent element) acc).orphanedParents ↔
      h ∈ acc.orphanedParents ∨ h ∈ hashes ∧ LastChild element acc.parentToChild h) ∧
    ∀ h, h ∈ (hashes.foldl (unlinkParent element) acc).dependencyFree ↔
      h ∈ acc.dependencyFree ∧ ¬ (h ∈ hashes ∧ LastChild element acc.parentToChild h) := by
  induction hashes generalizing acc with
  | nil => simp
  | cons parent hashes ih =>
    obtain ⟨hFresh, hRest⟩ := List.nodup_cons.mp hNodup
    obtain ⟨hLookup, hOrphaned, hFree⟩ := ih hRest (unlinkParent element acc parent)
    -- The step touches the entry of this parent only, and the parent does not come again.
    have hSame : ∀ h ∈ hashes, LastChild element (unlinkParent element acc parent).parentToChild h ↔
        LastChild element acc.parentToChild h := by
      intro h hMem
      have hNe : h ≠ parent := fun hEq => hFresh (hEq ▸ hMem)
      rw [LastChild, LastChild, lookup_unlinkParent, if_neg hNe]
    have hHere : ∀ h, h = parent ∧ LastChild element acc.parentToChild parent ↔
        h = parent ∧ LastChild element acc.parentToChild h := fun h => and_congr_right fun hEq => by rw [hEq]
    refine ⟨?_, ?_, ?_⟩
    · intro h
      rw [List.foldl_cons, hLookup, lookup_unlinkParent]
      obtain rfl | hNe := eq_or_ne h parent
      · simp [hFresh]
      · simp [hNe]
    · intro h
      rw [List.foldl_cons, hOrphaned, and_congr_right (hSame h), mem_orphanedParents_unlinkParent, hHere, or_assoc,
        ← or_and_right, List.mem_cons]
    · intro h
      rw [List.foldl_cons, hFree, and_congr_right (hSame h), mem_dependencyFree_unlinkParent, hHere, and_assoc, ← not_or,
        ← or_and_right, List.mem_cons]

theorem relieveChild_eq (element : Bytes) (acc : Relieved) (child : Bytes) :
    (linksOf acc.childToParent child).erase element = ∅ ∧ relieveChild element acc child =
      ⟨acc.childToParent.erase child, insert child acc.newDependencyFree, acc.childrenAffected,
        insert child acc.childrenRemoved⟩ ∨
    (linksOf acc.childToParent child).erase element ≠ ∅ ∧ relieveChild element acc child =
      ⟨acc.childToParent.insert child ((linksOf acc.childToParent child).erase element), acc.newDependencyFree,
        insert child acc.childrenAffected, acc.childrenRemoved⟩ := by
  rw [relieveChild, Finset.filter_ne']
  by_cases hEmpty : (linksOf acc.childToParent child).erase element = ∅
  · exact .inl ⟨hEmpty, if_pos hEmpty⟩
  · exact .inr ⟨hEmpty, if_neg hEmpty⟩

theorem mem_relieveChild (element : Bytes) (acc : Relieved) (child h : Bytes) :
    (h ∈ (relieveChild element acc child).newDependencyFree ↔
      h ∈ acc.newDependencyFree ∨ h = child ∧ (linksOf acc.childToParent h).erase element = ∅) ∧
    (h ∈ (relieveChild element acc child).childrenRemoved ↔
      h ∈ acc.childrenRemoved ∨ h = child ∧ (linksOf acc.childToParent h).erase element = ∅) ∧
    (h ∈ (relieveChild element acc child).childrenAffected ↔
      h ∈ acc.childrenAffected ∨ h = child ∧ (linksOf acc.childToParent h).erase element ≠ ∅) := by
  obtain ⟨hEmpty, hEq⟩ | ⟨hSome, hEq⟩ := relieveChild_eq element acc child
  · obtain rfl | hNe := eq_or_ne h child
    · simp [hEq, hEmpty]
    · simp [hEq, hNe]
  · obtain rfl | hNe := eq_or_ne h child
    · simp [hEq, hSome]
    · simp [hEq, hNe]

theorem lookup_relieveChild (element : Bytes) (acc : Relieved) (child h : Bytes) :
    (relieveChild element acc child).childToParent.lookup h =
      if h = child then without element (linksOf acc.childToParent h) else acc.childToParent.lookup h := by
  obtain ⟨hEmpty, hEq⟩ | ⟨hSome, hEq⟩ := relieveChild_eq element acc child
  · rw [hEq, lookup_erase_eq]
    obtain rfl | hNe := eq_or_ne h child
    · simp [without, hEmpty]
    · simp [hNe]
  · rw [hEq, lookup_insert_eq]
    obtain rfl | hNe := eq_or_ne h child
    · simp [without, hSome]
    · simp [hNe]

theorem foldl_relieveChild (element : Bytes) (hNodup : hashes.Nodup) (acc : Relieved) :
    (∀ h, (hashes.foldl (relieveChild element) acc).childToParent.lookup h =
      if h ∈ hashes then without element (linksOf acc.childToParent h) else acc.childToParent.lookup h) ∧
    (∀ h, h ∈ (hashes.foldl (relieveChild element) acc).newDependencyFree ↔
      h ∈ acc.newDependencyFree ∨ h ∈ hashes ∧ (linksOf acc.childToParent h).erase element = ∅) ∧
    (∀ h, h ∈ (hashes.foldl (relieveChild element) acc).childrenRemoved ↔
      h ∈ acc.childrenRemoved ∨ h ∈ hashes ∧ (linksOf acc.childToParent h).erase element = ∅) ∧
    ∀ h, h ∈ (hashes.foldl (relieveChild element) acc).childrenAffected ↔
      h ∈ acc.childrenAffected ∨ h ∈ hashes ∧ (linksOf acc.childToParent h).erase element ≠ ∅ := by
  induction hashes generalizing acc with
  | nil => simp
  | cons child hashes ih =>
    obtain ⟨hFresh, hRest⟩ := List.nodup_cons.mp hNodup
    obtain ⟨hLookup, hFree, hRemoved, hAffected⟩ := ih hRest (relieveChild element acc child)
    have hSame : ∀ h, h ≠ child →
        linksOf (relieveChild element acc child).childToParent h = linksOf acc.childToParent h := by
      intro h hNe
      rw [linksOf, lookup_relieveChild, if_neg hNe, linksOf]
    have hLater : ∀ h ∈ hashes, h ≠ child := fun h hMem hEq => hFresh (hEq ▸ hMem)
    refine ⟨?_, ?_, ?_, ?_⟩
    · intro h
      rw [List.foldl_cons, hLookup, lookup_relieveChild]
      obtain rfl | hNe := eq_or_ne h child
      · simp [hFresh]
      · simp [hNe, hSame h hNe]
    · intro h
      rw [List.foldl_cons, hFree, and_congr_right fun hMem => by rw [hSame h (hLater h hMem)],
        (mem_relieveChild element acc child h).1, or_assoc, ← or_and_right, List.mem_cons]
    · intro h
      rw [List.foldl_cons, hRemoved, and_congr_right fun hMem => by rw [hSame h (hLater h hMem)],
        (mem_relieveChild element acc child h).2.1, or_assoc, ← or_and_right, List.mem_cons]
    · intro h
      rw [List.foldl_cons, hAffected, and_congr_right fun hMem => by rw [hSame h (hLater h hMem)],
        (mem_relieveChild element acc child h).2.2, or_assoc, ← or_and_right, List.mem_cons]

/-- The two tables hold the same links, and no entry is empty. -/
structure Linked (dag : BlockDependencyDag) : Prop where
  mirror : ∀ p c, c ∈ dag.children p ↔ p ∈ dag.parents c
  children_ne_empty : ∀ h, dag.parentToChild.lookup h ≠ some ∅
  parents_ne_empty : ∀ h, dag.childToParent.lookup h ≠ some ∅

theorem linked_empty : Linked empty where
  mirror p c := by simp [children, parents, linksOf, empty]
  children_ne_empty h := by simp [empty]
  parents_ne_empty h := by simp [empty]

theorem lookup_eq_some_of_mem {h x : Bytes} (hMem : x ∈ linksOf links h) :
    links.lookup h = some (linksOf links h) := by
  rw [linksOf] at hMem ⊢
  cases hEntry : links.lookup h with
  | none => simp [hEntry] at hMem
  | some values => simp

theorem bind_without_of_notMem (hNe : links.lookup h ≠ some ∅) (hNot : element ∉ linksOf links h) :
    (links.lookup h).bind (without element) = links.lookup h := by
  rw [linksOf] at hNot
  cases hEntry : links.lookup h with
  | none => rfl
  | some values =>
    rw [hEntry, Option.getD_some] at hNot
    rw [Option.bind_some, without_eq_some, Finset.erase_eq_of_notMem hNot]
    exact ⟨rfl, fun hEmpty => hNe (hEntry.trans (congrArg some hEmpty))⟩

theorem mem_linksOf_bind {x : Bytes} :
    x ∈ ((links.lookup h).bind (without element)).getD ∅ ↔ x ∈ linksOf links h ∧ x ≠ element := by
  rw [linksOf]
  cases links.lookup h with
  | none => simp
  | some values =>
    rw [Option.bind_some, Option.getD_some, without]
    split
    · next hEmpty =>
      rw [Finset.erase_eq_empty_iff] at hEmpty
      aesop
    · simp [and_comm]

theorem linksOf_erase_of_ne (hNe : h ≠ element) :
    linksOf (links.erase element) h = linksOf links h := by
  rw [linksOf, lookup_erase_eq, if_neg hNe, linksOf]

section

variable (hLinked : Linked dag) (order element)

include hLinked

theorem lookup_unlinked (h : Bytes) : (dag.unlinked order element).parentToChild.lookup h =
    (dag.parentToChild.lookup h).bind (without element) := by
  rw [unlinked, (foldl_unlinkParent element (order.nodup _) _).1]
  simp only [order.mem_toList]
  split
  · rfl
  · next hNot =>
    rw [bind_without_of_notMem (hLinked.children_ne_empty h)]
    exact fun hMem => hNot ((hLinked.mirror _ _).mp hMem)

theorem mem_orphaned {h : Bytes} : h ∈ (dag.remove order element).orphanedParents ↔ dag.children h = {element} := by
  have hFold := (foldl_unlinkParent element (order.nodup (dag.parents element)) ⟨dag.parentToChild, dag.dependencyFree, ∅⟩).2.1 h
  rw [order.mem_toList, LastChild] at hFold
  refine hFold.trans ?_
  constructor
  · rintro (hNone | ⟨hParent, values, hEntry, hEmpty⟩)
    · exact absurd hNone (Finset.notMem_empty h)
    · have hMem := (hLinked.mirror h element).mpr hParent
      have hValues : dag.children h = values := by rw [children, linksOf, hEntry, Option.getD_some]
      rw [hValues] at hMem ⊢
      rcases Finset.erase_eq_empty_iff _ _ |>.mp hEmpty with rfl | hSingle
      · exact absurd hMem (Finset.notMem_empty element)
      · exact hSingle
  · intro hChildren
    have hMem : element ∈ dag.children h := by simp [hChildren]
    refine .inr ⟨(hLinked.mirror h element).mp hMem, {element}, ?_, by simp⟩
    rw [← hChildren]
    exact lookup_eq_some_of_mem hMem

theorem mem_children_unlinked {h : Bytes} :
    h ∈ linksOf (dag.unlinked order element).parentToChild element ↔ element ∈ dag.parents h ∧ h ≠ element := by
  rw [linksOf, lookup_unlinked order element hLinked, mem_linksOf_bind]
  exact and_congr_left fun _ => hLinked.mirror element h

theorem lookup_parentToChild_remove (h : Bytes) : (dag.remove order element).dag.parentToChild.lookup h =
    if h = element then none else (dag.parentToChild.lookup h).bind (without element) := by
  rw [remove, lookup_erase_eq, lookup_unlinked order element hLinked]

theorem lookup_childToParent_remove (h : Bytes) : (dag.remove order element).dag.childToParent.lookup h =
    if h = element then none else (dag.childToParent.lookup h).bind (without element) := by
  have hFold := (foldl_relieveChild element
    (order.nodup (linksOf (dag.unlinked order element).parentToChild element))
    ⟨dag.childToParent.erase element, ∅, ∅, ∅⟩).1 h
  simp only [order.mem_toList, mem_children_unlinked order element hLinked] at hFold
  refine hFold.trans ?_
  obtain rfl | hNe := eq_or_ne h element
  · rw [if_neg (by simp), lookup_erase_eq, if_pos rfl, if_pos rfl]
  · rw [linksOf_erase_of_ne hNe, lookup_erase_eq, if_neg hNe, if_neg hNe]
    split
    · next hChild =>
      have hEntry := lookup_eq_some_of_mem hChild.1
      rw [hEntry]
      rfl
    · next hNot =>
      rw [bind_without_of_notMem (hLinked.parents_ne_empty h)]
      exact fun hMem => hNot ⟨hMem, hNe⟩

theorem mem_relieved (h : Bytes) :
    (h ∈ (dag.relieved order element).newDependencyFree ↔ h ≠ element ∧ dag.parents h = {element}) ∧
    (h ∈ (dag.remove order element).childrenRemoved ↔ h ≠ element ∧ dag.parents h = {element}) ∧
    (h ∈ (dag.remove order element).childrenAffected ↔
      h ≠ element ∧ element ∈ dag.parents h ∧ dag.parents h ≠ {element}) := by
  obtain ⟨-, hFree, hRemoved, hAffected⟩ := foldl_relieveChild element
    (order.nodup (linksOf (dag.unlinked order element).parentToChild element))
    ⟨dag.childToParent.erase element, ∅, ∅, ∅⟩
  have hSet : ∀ s : Finset Bytes, element ∈ s → (s.erase element = ∅ ↔ s = {element}) := by
    intro s hMem
    rw [Finset.erase_eq_empty_iff]
    exact or_iff_right (Finset.ne_empty_of_mem hMem)
  have hChild : h ∈ order.toList (linksOf (dag.unlinked order element).parentToChild element) ↔
      element ∈ dag.parents h ∧ h ≠ element :=
    (order.mem_toList _ _).trans (mem_children_unlinked order element hLinked)
  have hNone : ∀ p : Prop, h ∈ (∅ : Finset Bytes) ∨ p ↔ p := fun p => or_iff_right (Finset.notMem_empty h)
  have hEmptied : (element ∈ dag.parents h ∧ h ≠ element) ∧
      (linksOf (dag.childToParent.erase element) h).erase element = ∅ ↔ h ≠ element ∧ dag.parents h = {element} := by
    constructor
    · rintro ⟨⟨hMem, hNe⟩, hEmpty⟩
      rw [linksOf_erase_of_ne hNe] at hEmpty
      exact ⟨hNe, (hSet _ hMem).mp hEmpty⟩
    · rintro ⟨hNe, hSingle⟩
      have hMem : element ∈ dag.parents h := by simp [hSingle]
      rw [linksOf_erase_of_ne hNe]
      exact ⟨⟨hMem, hNe⟩, (hSet _ hMem).mpr hSingle⟩
  refine ⟨?_, ?_, ?_⟩
  · exact (hFree h).trans ((hNone _).trans ((and_congr_left' hChild).trans hEmptied))
  · exact (hRemoved h).trans ((hNone _).trans ((and_congr_left' hChild).trans hEmptied))
  · refine (hAffected h).trans ((hNone _).trans ((and_congr_left' hChild).trans ?_))
    constructor
    · rintro ⟨⟨hMem, hNe⟩, hSome⟩
      rw [linksOf_erase_of_ne hNe] at hSome
      exact ⟨hNe, hMem, fun hSingle => hSome ((hSet _ hMem).mpr hSingle)⟩
    · rintro ⟨hNe, hMem, hSingle⟩
      rw [linksOf_erase_of_ne hNe]
      exact ⟨⟨hMem, hNe⟩, fun hEmpty => hSingle ((hSet _ hMem).mp hEmpty)⟩

theorem mem_dependencyFree_remove (h : Bytes) : h ∈ (dag.remove order element).dag.dependencyFree ↔
    h ≠ element ∧ (h ∈ dag.dependencyFree ∧ dag.children h ≠ {element} ∨ dag.parents h = {element}) ∧
      ¬ (dag.children h = {element} ∧ h ∉ (dag.remove order element).dag.childToParent) := by
  have hUp : h ∈ (dag.unlinked order element).dependencyFree ↔
      h ∈ dag.dependencyFree ∧ dag.children h ≠ {element} := by
    refine ((foldl_unlinkParent element (order.nodup (dag.parents element))
      ⟨dag.parentToChild, dag.dependencyFree, ∅⟩).2.2 h).trans (and_congr_right' (not_congr ?_))
    have hFold := (foldl_unlinkParent element (order.nodup (dag.parents element))
      ⟨dag.parentToChild, dag.dependencyFree, ∅⟩).2.1 h
    exact ((hFold.trans (or_iff_right (Finset.notMem_empty h))).symm).trans (mem_orphaned order element hLinked)
  have hOrphan : h ∈ (dag.unlinked order element).orphanedParents ↔ dag.children h = {element} :=
    mem_orphaned order element hLinked
  have hDown := (mem_relieved order element hLinked h).1
  have hTable : h ∉ (dag.relieved order element).childToParent ↔
      h ∉ (dag.remove order element).dag.childToParent := Iff.rfl
  rw [remove]
  simp only [Finset.mem_filter, Finset.mem_erase, Finset.mem_union, hUp, hDown, hOrphan]
  rw [hTable, remove, and_assoc]
  refine and_congr_right fun hNe => ?_
  rw [and_iff_right hNe]

theorem Linked.remove : Linked (dag.remove order element).dag where
  mirror p c := by
    have hChildren : c ∈ (dag.remove order element).dag.children p ↔ p ≠ element ∧ c ∈ dag.children p ∧ c ≠ element := by
      rw [children, linksOf, lookup_parentToChild_remove order element hLinked]
      split
      · next hEq => simp [hEq]
      · next hNe => exact mem_linksOf_bind.trans (and_iff_right hNe).symm
    have hParents : p ∈ (dag.remove order element).dag.parents c ↔ c ≠ element ∧ p ∈ dag.parents c ∧ p ≠ element := by
      rw [parents, linksOf, lookup_childToParent_remove order element hLinked]
      split
      · next hEq => simp [hEq]
      · next hNe => exact mem_linksOf_bind.trans (and_iff_right hNe).symm
    rw [hChildren, hParents, hLinked.mirror]
    tauto
  children_ne_empty h := by
    rw [lookup_parentToChild_remove order element hLinked]
    split
    · exact nofun
    · intro hEmpty
      obtain ⟨values, -, hWithout⟩ := Option.bind_eq_some_iff.mp hEmpty
      exact (without_eq_some.mp hWithout).2 rfl
  parents_ne_empty h := by
    rw [lookup_childToParent_remove order element hLinked]
    split
    · exact nofun
    · intro hEmpty
      obtain ⟨values, -, hWithout⟩ := Option.bind_eq_some_iff.mp hEmpty
      exact (without_eq_some.mp hWithout).2 rfl

theorem Linked.add (parent child : Bytes) : Linked (dag.add parent child) where
  mirror p c := by
    rw [children, parents, BlockDependencyDag.add, linksOf_insert, linksOf_insert]
    have hMirror := hLinked.mirror p c
    rw [children, parents] at hMirror
    by_cases hParent : p = parent <;> by_cases hChild : c = child <;>
      simp [hParent, hChild, children, parents] <;> simp_all
  children_ne_empty h := by
    rw [BlockDependencyDag.add, lookup_insert_eq]
    split
    · simp
    · exact hLinked.children_ne_empty h
  parents_ne_empty h := by
    rw [BlockDependencyDag.add, lookup_insert_eq]
    split
    · simp
    · exact hLinked.parents_ne_empty h

end

end BlockDependencyDag

end F1r3Node.CasperBuffer
