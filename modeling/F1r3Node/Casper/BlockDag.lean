import F1r3Node.Lib.AncestorSearch
import F1r3Node.Shared.Bytes
import Mathlib.Data.List.AList

/-! # The block DAG

Blocks are kept with their number and their parents, the main parent first.
-/

namespace F1r3Node.Casper

open Shared Lib

/-- A block the index does not hold, with the method that asked for it. -/
inductive KvStoreError where
  | missingBlock (hash : Bytes) (method : String)
  deriving DecidableEq

structure BlockMetadata where
  blockNumber : Int
  parents : List Bytes
  deriving DecidableEq

structure KeyValueDagRepresentation where
  blocks : AList fun _ : Bytes => BlockMetadata
  parents_lower : ∀ hash metadata, blocks.lookup hash = some metadata → ∀ parent ∈ metadata.parents,
    ∀ parentMetadata, blocks.lookup parent = some parentMetadata → parentMetadata.blockNumber < metadata.blockNumber

namespace KeyValueDagRepresentation

variable (dag : KeyValueDagRepresentation)

/-- Number and parents are kept together, so that only the first of the two reads can fail. -/
def lookup (hash : Bytes) : Except KvStoreError (Int × List Bytes) :=
  match dag.blocks.lookup hash with
  | some metadata => .ok (metadata.blockNumber, metadata.parents)
  | none => .error (.missingBlock hash "block_number_unsafe")

theorem lookup_eq_ok {hash : Bytes} {number : Int} {parents : List Bytes} :
    dag.lookup hash = .ok (number, parents) ↔ dag.blocks.lookup hash = some ⟨number, parents⟩ := by
  rw [lookup]
  cases dag.blocks.lookup hash with
  | none => simp
  | some metadata =>
    obtain ⟨blockNumber, blockParents⟩ := metadata
    simp

def listedParents : Finset Bytes := (dag.blocks.entries.flatMap fun entry => entry.2.parents).toFinset

def ancestry : Ancestry Bytes KvStoreError where
  lookup := dag.lookup
  nodes := dag.listedParents
  mem_nodes := by
    intro n h ps hLook p hp
    have hEntry := AList.mem_lookup_iff.mp ((dag.lookup_eq_ok).mp hLook)
    rw [listedParents, List.mem_toFinset, List.mem_flatMap]
    exact ⟨_, hEntry, hp⟩
  lower := by
    intro n h ps hLook p hp h' ps' hLook'
    exact dag.parents_lower n _ (dag.lookup_eq_ok.mp hLook) p hp _ (dag.lookup_eq_ok.mp hLook')

def isDagAncestor (ancestor descendant : Bytes) : Except KvStoreError Bool :=
  dag.ancestry.isAncestor ancestor descendant

/-- `ancestor` is a block below `descendant`, through any parents. -/
def StrictAncestor (ancestor descendant : Bytes) : Prop := dag.ancestry.StrictAncestor ancestor descendant

variable {dag}

theorem isDagAncestor_eq_ok {ancestor descendant : Bytes} {found : Bool}
    (h : dag.isDagAncestor ancestor descendant = .ok found) (hNe : ancestor ≠ descendant) :
    found = true ↔ dag.StrictAncestor ancestor descendant := by
  rw [Ancestry.isAncestor_eq_ok h, Relation.reflTransGen_iff_eq_or_transGen]
  constructor
  · rintro (hEq | hStrict)
    · exact absurd hEq.symm hNe
    · exact hStrict
  · exact .inr

theorem StrictAncestor.trans {a b c : Bytes} (hab : dag.StrictAncestor a b) (hbc : dag.StrictAncestor b c) :
    dag.StrictAncestor a c :=
  Relation.TransGen.trans hab hbc

theorem StrictAncestor.ne {a b : Bytes} (h : dag.StrictAncestor a b) : a ≠ b := by
  rintro rfl
  exact dag.ancestry.not_strictAncestor_self a h

variable (dag)

def heightOf (stop : Int) (hash : Bytes) : Int :=
  match dag.lookup hash with
  | .ok (number, _) => number
  | .error _ => stop

def followMainParents (ancestor : Bytes) (stop : Int) (current : Bytes) : Except KvStoreError Bool :=
  match _hLook : dag.lookup current with
  | .error e => .error e
  | .ok (height, parents) =>
    if height ≤ stop then .ok (current = ancestor)
    else
      match _hHead : parents.head? with
      | none => .ok false
      | some mainParent => followMainParents ancestor stop mainParent
termination_by (dag.heightOf stop current - stop).toNat
decreasing_by
  have hCurrent : dag.heightOf stop current = height := by rw [heightOf, _hLook]
  have hParent : dag.heightOf stop mainParent < height := by
    cases hLookParent : dag.lookup mainParent with
    | error e =>
      rw [heightOf, hLookParent]
      dsimp only
      omega
    | ok found =>
      rw [heightOf, hLookParent]
      exact dag.ancestry.lower current height parents _hLook mainParent (List.mem_of_head? _hHead) _ _ hLookParent
  omega

def isInMainChain (ancestor descendant : Bytes) : Except KvStoreError Bool :=
  if ancestor = descendant then .ok true
  else
    match dag.lookup ancestor with
    | .error e => .error e
    | .ok (stop, _) => dag.followMainParents ancestor stop descendant

def children (hash : Bytes) : List Bytes :=
  (dag.blocks.entries.filter fun entry => hash ∈ entry.2.parents).map Sigma.fst

def childrenOf (level : List Bytes) : List Bytes := level.flatMap dag.children

def descendantLevels (result : Finset Bytes) (level : List Bytes) : Finset Bytes :=
  let next := Ancestry.visitAll (dag.childrenOf level) (result, [])
  if _hNext : next.2 = [] then next.1 else descendantLevels next.1 next.2
termination_by (dag.blocks.keys.toFinset \ result).card
decreasing_by
  have hKeys : ∀ child ∈ dag.childrenOf level, child ∈ dag.blocks.keys.toFinset := by
    intro child hChild
    obtain ⟨hash, -, hChild⟩ := List.mem_flatMap.mp hChild
    obtain ⟨entry, hEntry, rfl⟩ := List.mem_map.mp hChild
    rw [List.mem_toFinset, AList.keys, List.keys]
    exact List.mem_map_of_mem (List.mem_of_mem_filter hEntry)
  have hCard := Ancestry.card_visitAll hKeys (result, [])
  have hPos : 0 < next.2.length := List.length_pos_of_ne_nil _hNext
  rw [List.length_nil, Nat.add_zero] at hCard
  dsimp only [next] at hPos ⊢
  dsimp only at hCard
  omega

def descendants (hash : Bytes) : Finset Bytes := dag.descendantLevels ∅ [hash]

end KeyValueDagRepresentation

end F1r3Node.Casper
