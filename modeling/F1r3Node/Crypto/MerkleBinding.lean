import F1r3Node.Shared.Bytes

/-! # A Merkle root binds its leaves

Leaf inputs do not start with the domain byte of the interior nodes, so without a collision the tree is determined by
its root, odd tails included.
-/

namespace F1r3Node.Crypto.Merkle

open Shared

structure MerkleParams where
  interiorDomain : UInt8

def emptyRoot : Bytes := List.replicate 32 0

variable (H : Blake2b256) (params : MerkleParams)

def hashLeafTagged (leafDomain : UInt8) (bytes : Bytes) : Bytes :=
  H.hash (leafDomain :: bytes)

def hashInterior (left right : Bytes) : Bytes :=
  H.hash (params.interiorDomain :: (left ++ right))

def nextLevel : List Bytes → List Bytes
  | a :: b :: rest => hashInterior H params a b :: nextLevel rest
  | tail => tail

def collapse : Nat → List Bytes → List Bytes
  | 0, level => level
  | fuel + 1, level => if 1 < level.length then collapse fuel (nextLevel H params level) else level

def merkleRoot (leaves : List Bytes) : Bytes :=
  match collapse H params leaves.length leaves with
  | [] => emptyRoot
  | root :: _ => root

theorem length_nextLevel (level : List Bytes) :
    (nextLevel H params level).length = (level.length + 1) / 2 := by
  fun_induction nextLevel H params level with
  | case1 a b rest ih => simp only [List.length_cons, ih]; omega
  | case2 tail hTail =>
    match tail with
    | [] => rfl
    | [_] => simp
    | a :: b :: rest => exact absurd rfl (hTail a b rest)

theorem length_collapse (fuel : Nat) (level : List Bytes) (hFuel : level.length ≤ fuel + 1) :
    (collapse H params fuel level).length ≤ 1 := by
  induction fuel generalizing level with
  | zero => exact hFuel
  | succ fuel ih =>
    rw [collapse]
    split
    · exact ih _ (by rw [length_nextLevel]; omega)
    · omega

end F1r3Node.Crypto.Merkle

namespace F1r3Node.Crypto.Merkle

open Shared

/-- A computation of a root from the inputs of the leaf digests. -/
inductive Tree where
  | leaf (input : Bytes)
  | node (left right : Tree)

def Tree.leaves : Tree → List Bytes
  | .leaf input => [input]
  | .node left right => left.leaves ++ right.leaves

variable (H : Blake2b256) (params : MerkleParams)

def Tree.root : Tree → Bytes
  | .leaf input => H.hash input
  | .node left right => hashInterior H params left.root right.root

def Tree.inputs : Tree → List Bytes
  | .leaf input => [input]
  | .node left right =>
    (params.interiorDomain :: (left.root H params ++ right.root H params)) :: (left.inputs ++ right.inputs)

def pairUp : List Tree → List Tree
  | a :: b :: rest => .node a b :: pairUp rest
  | tail => tail

def grow : Nat → List Tree → List Tree
  | 0, level => level
  | fuel + 1, level => if 1 < level.length then grow fuel (pairUp level) else level

/-- The trees that `merkleRoot` is left with: one, or none for the empty list. -/
def merkleTrees (inputs : List Bytes) : List Tree := grow inputs.length (inputs.map .leaf)

/-- Everything that `merkleRoot` hashes, the leaves included. -/
def merkleInputs (inputs : List Bytes) : List Bytes := (merkleTrees inputs).flatMap (Tree.inputs H params)

theorem roots_pairUp (level : List Tree) :
    (pairUp level).map (Tree.root H params) = nextLevel H params (level.map (Tree.root H params)) := by
  fun_induction pairUp level with
  | case1 a b rest ih =>
    rw [List.map_cons, List.map_cons, List.map_cons, nextLevel, ih]
    rfl
  | case2 tail hTail =>
    match tail with
    | [] => rfl
    | [_] => rfl
    | a :: b :: rest => exact absurd rfl (hTail a b rest)

theorem leaves_pairUp (level : List Tree) : (pairUp level).flatMap Tree.leaves = level.flatMap Tree.leaves := by
  fun_induction pairUp level with
  | case1 a b rest ih => simp [Tree.leaves, ih]
  | case2 tail hTail => rfl

theorem roots_grow (fuel : Nat) (level : List Tree) :
    (grow fuel level).map (Tree.root H params) = collapse H params fuel (level.map (Tree.root H params)) := by
  induction fuel generalizing level with
  | zero => rfl
  | succ fuel ih =>
    rw [grow, collapse, List.length_map]
    split_ifs
    · rw [ih, roots_pairUp]
    · rfl

theorem leaves_grow (fuel : Nat) (level : List Tree) :
    (grow fuel level).flatMap Tree.leaves = level.flatMap Tree.leaves := by
  induction fuel generalizing level with
  | zero => rfl
  | succ fuel ih =>
    rw [grow]
    split_ifs
    · rw [ih, leaves_pairUp]
    · rfl

theorem roots_merkleTrees (inputs : List Bytes) : (merkleTrees inputs).map (Tree.root H params) =
    collapse H params (inputs.map H.hash).length (inputs.map H.hash) := by
  rw [merkleTrees, roots_grow, List.length_map, List.map_map]
  rfl

theorem leaves_merkleTrees (inputs : List Bytes) : (merkleTrees inputs).flatMap Tree.leaves = inputs := by
  rw [merkleTrees, leaves_grow, List.flatMap_map]
  exact List.flatMap_singleton' inputs

theorem merkleRoot_cases (inputs : List Bytes) :
    (inputs = [] ∧ merkleRoot H params (inputs.map H.hash) = emptyRoot) ∨
    ∃ t, merkleTrees inputs = [t] ∧ t.leaves = inputs ∧
      merkleRoot H params (inputs.map H.hash) = t.root H params := by
  have hRoots := roots_merkleTrees H params inputs
  have hLeaves := leaves_merkleTrees inputs
  have hLength : (merkleTrees inputs).length ≤ 1 := by
    have hCollapse := length_collapse H params _ (inputs.map H.hash) (Nat.le_succ _)
    rwa [← hRoots, List.length_map] at hCollapse
  rw [merkleRoot, ← hRoots]
  match hTrees : merkleTrees inputs with
  | [] =>
    rw [hTrees] at hLeaves
    exact .inl ⟨hLeaves.symm, rfl⟩
  | [t] =>
    rw [hTrees] at hLeaves
    exact .inr ⟨t, rfl, by simpa using hLeaves, rfl⟩
  | t :: t' :: rest =>
    rw [hTrees] at hLength
    simp at hLength

variable {H params}

theorem Tree.length_root (t : Tree) : (t.root H params).length = 32 := by
  cases t <;> exact H.length_hash _

variable (H params) in
theorem Tree.exists_input (t : Tree) : ∃ input ∈ t.inputs H params, t.root H params = H.hash input := by
  cases t with
  | leaf input => exact ⟨input, List.mem_singleton_self input, rfl⟩
  | node left right => exact ⟨_, List.mem_cons_self, rfl⟩

section

variable {S : Set Bytes} (hInj : Set.InjOn H.hash S)

include hInj in
theorem Tree.eq_of_root_eq {t t' : Tree} (hIn : ∀ input ∈ t.inputs H params, input ∈ S)
    (hIn' : ∀ input ∈ t'.inputs H params, input ∈ S)
    (hLeaf : ∀ input ∈ t.leaves, input.head? ≠ some params.interiorDomain)
    (hLeaf' : ∀ input ∈ t'.leaves, input.head? ≠ some params.interiorDomain)
    (hRoot : t.root H params = t'.root H params) : t = t' := by
  induction t generalizing t' with
  | leaf input =>
    cases t' with
    | leaf input' =>
      rw [hInj (hIn input List.mem_cons_self) (hIn' input' List.mem_cons_self) hRoot]
    | node left right =>
      have hEq := hInj (hIn input List.mem_cons_self) (hIn' _ List.mem_cons_self) hRoot
      exact absurd (congrArg List.head? hEq) (hLeaf input List.mem_cons_self)
  | node left right ihLeft ihRight =>
    cases t' with
    | leaf input' =>
      have hEq := hInj (hIn _ List.mem_cons_self) (hIn' input' List.mem_cons_self) hRoot
      exact absurd (congrArg List.head? hEq.symm) (hLeaf' input' List.mem_cons_self)
    | node left' right' =>
      have hEq := hInj (hIn _ List.mem_cons_self) (hIn' _ List.mem_cons_self) hRoot
      obtain ⟨hLeft, hRight⟩ := List.append_inj (List.cons.inj hEq).2
        ((left.length_root).trans (left'.length_root).symm)
      simp only [Tree.inputs, Tree.leaves, List.forall_mem_cons, List.forall_mem_append] at hIn hIn' hLeaf hLeaf'
      rw [ihLeft hIn.2.1 hIn'.2.1 hLeaf.1 hLeaf'.1 hLeft, ihRight hIn.2.2 hIn'.2.2 hLeaf.2 hLeaf'.2 hRight]

include hInj in
theorem eq_of_merkleRoot_eq {inputs inputs' : List Bytes}
    (hIn : ∀ input ∈ merkleInputs H params inputs, input ∈ S)
    (hIn' : ∀ input ∈ merkleInputs H params inputs', input ∈ S)
    (hNonzero : ∀ input ∈ S, H.hash input ≠ emptyRoot)
    (hLeaf : ∀ input ∈ inputs, input.head? ≠ some params.interiorDomain)
    (hLeaf' : ∀ input ∈ inputs', input.head? ≠ some params.interiorDomain)
    (hRoot : merkleRoot H params (inputs.map H.hash) = merkleRoot H params (inputs'.map H.hash)) :
    inputs = inputs' := by
  have hTree : ∀ {inputs t}, merkleTrees inputs = [t] → merkleInputs H params inputs = t.inputs H params := by
    intro inputs t hTrees
    rw [merkleInputs, hTrees, List.flatMap_singleton]
  have hNot : ∀ {t : Tree}, (∀ input ∈ t.inputs H params, input ∈ S) → t.root H params ≠ emptyRoot := by
    intro t hMem
    obtain ⟨input, hInput, hEq⟩ := t.exists_input H params
    rw [hEq]
    exact hNonzero input (hMem input hInput)
  obtain ⟨rfl, hEmpty⟩ | ⟨t, hTrees, hLeaves, hOwn⟩ := merkleRoot_cases H params inputs <;>
    obtain ⟨rfl, hEmpty'⟩ | ⟨t', hTrees', hLeaves', hOwn'⟩ := merkleRoot_cases H params inputs'
  · rfl
  · rw [hTree hTrees'] at hIn'
    exact absurd (hOwn'.symm.trans (hRoot.symm.trans hEmpty)) (hNot hIn')
  · rw [hTree hTrees] at hIn
    exact absurd (hOwn.symm.trans (hRoot.trans hEmpty')) (hNot hIn)
  · rw [hTree hTrees] at hIn
    rw [hTree hTrees'] at hIn'
    have hSame : t = t' := Tree.eq_of_root_eq hInj hIn hIn' (hLeaves ▸ hLeaf) (hLeaves' ▸ hLeaf')
      (hOwn.symm.trans (hRoot.trans hOwn'))
    rw [← hLeaves, ← hLeaves', hSame]

end

end F1r3Node.Crypto.Merkle
