import F1r3Node.Crypto.MerkleBinding
import Mathlib.Data.List.Induction

/-! # Merkle inclusion proofs

The verifier climbs with the sides the proof brings along and never reads the index, so what an accepted proof shows
is that the leaf sits where its sides lead.
-/

namespace F1r3Node.Crypto.Merkle

open Shared

structure MerkleProof where
  index : UInt32
  siblings : List (Bytes × Bool)

variable (H : Blake2b256) (params : MerkleParams)

/-- The level loop of `build_proof`. -/
def siblingsOf : Nat → List Bytes → Nat → List (Bytes × Bool)
  | 0, _, _ => []
  | fuel + 1, level, idx =>
    if 1 < level.length then
      let isIdxLeft := decide (idx % 2 = 0)
      let sibIdx := if isIdxLeft then idx + 1 else idx - 1
      let above := siblingsOf fuel (nextLevel H params level) (idx / 2)
      -- a promoted tail has no sibling on its level
      match level[sibIdx]? with
      | some sibling => (sibling, isIdxLeft) :: above
      | none => above
    else []

def buildProof (leaves : List Bytes) (index : UInt32) : Option MerkleProof :=
  if leaves = [] ∨ leaves.length ≤ index.toNat then none
  else some ⟨index, siblingsOf H params leaves.length leaves index.toNat⟩

theorem buildProof_of_lt (leaves : List Bytes) (index : UInt32) (h : index.toNat < leaves.length) :
    buildProof H params leaves index = some ⟨index, siblingsOf H params leaves.length leaves index.toNat⟩ := by
  rw [buildProof, if_neg]
  rintro (rfl | hLe)
  · exact Nat.not_lt_zero _ h
  · exact Nat.not_le.mpr h hLe

def climbStep (current : Bytes) (step : Bytes × Bool) : Bytes :=
  if step.2 then hashInterior H params current step.1 else hashInterior H params step.1 current

def climb (leafHash : Bytes) (siblings : List (Bytes × Bool)) : Bytes := siblings.foldl (climbStep H params) leafHash

def verifyProof (root leafHash : Bytes) (proof : MerkleProof) : Bool :=
  decide (climb H params leafHash proof.siblings = root)

/-- The subtree at the end of a path from the root; a step says whether the sibling is the right child. -/
def Tree.follow : Tree → List Bool → Option Tree
  | t, [] => some t
  | .leaf _, _ :: _ => none
  | .node left right, siblingRight :: path => if siblingRight then left.follow path else right.follow path

@[simp] theorem Tree.follow_nil (t : Tree) : t.follow [] = some t := by
  cases t <;> rfl

theorem getElem?_pairUp {level : List Tree} {k : Nat} {sub : Tree} (h : (pairUp level)[k]? = some sub) :
    (∃ a b, level[2 * k]? = some a ∧ level[2 * k + 1]? = some b ∧ sub = .node a b) ∨
      level[2 * k]? = some sub ∧ level[2 * k + 1]? = none := by
  fun_induction pairUp level generalizing k with
  | case1 a b rest ih =>
    cases k with
    | zero => exact .inl ⟨a, b, rfl, rfl, (Option.some.inj h).symm⟩
    | succ k => exact ih h
  | case2 tail hTail =>
    obtain _ | ⟨only, _ | ⟨b, rest⟩⟩ := tail
    · exact absurd h (by simp)
    · cases k with
      | zero => exact .inr ⟨h, rfl⟩
      | succ _ => exact absurd h (by simp)
    · exact absurd rfl (hTail only b rest)

variable {input : Bytes}

theorem exists_position {fuel : Nat} {level : List Tree} {t : Tree} (hGrow : grow fuel level = [t])
    {path : List Bool} (hPath : t.follow path = some (.leaf input)) :
    ∃ idx sub path', level[idx]? = some sub ∧ sub.follow path' = some (.leaf input) ∧
      path = ((siblingsOf H params fuel (level.map (Tree.root H params)) idx).map Prod.snd).reverse ++ path' := by
  induction fuel generalizing level with
  | zero =>
    rw [grow] at hGrow
    exact ⟨0, t, path, by rw [hGrow]; rfl, hPath, rfl⟩
  | succ fuel ih =>
    rw [grow] at hGrow
    split_ifs at hGrow with hMany
    · obtain ⟨k, sub, path', hSub, hFollow, hEq⟩ := ih hGrow
      rw [roots_pairUp] at hEq
      obtain ⟨a, b, hLeft, hRight, rfl⟩ | ⟨hTail, hNone⟩ := getElem?_pairUp hSub
      · -- the pair was joined on this level: the path goes one step further, to one of the two
        obtain _ | ⟨_ | _, path'⟩ := path'
        · exact absurd hFollow (by simp)
        · refine ⟨2 * k + 1, b, path', hRight, hFollow, ?_⟩
          have hHalf : (2 * k + 1) / 2 = k := by omega
          rw [hEq, siblingsOf]
          simp [hMany, hLeft, hHalf]
        · refine ⟨2 * k, a, path', hLeft, hFollow, ?_⟩
          rw [hEq, siblingsOf]
          simp [hMany, hRight]
      · refine ⟨2 * k, sub, path', hTail, hFollow, ?_⟩
        rw [hEq, siblingsOf]
        simp [hMany, hNone]
    · refine ⟨0, t, path, by rw [hGrow]; rfl, hPath, ?_⟩
      rw [siblingsOf, List.length_map, if_neg hMany]
      rfl

def climbInput (current : Bytes) (step : Bytes × Bool) : Bytes :=
  params.interiorDomain :: if step.2 then current ++ step.1 else step.1 ++ current

def climbInputs : Bytes → List (Bytes × Bool) → List Bytes
  | _, [] => []
  | current, step :: rest => climbInput params current step :: climbInputs (climbStep H params current step) rest

theorem climbStep_eq (current : Bytes) (step : Bytes × Bool) :
    climbStep H params current step = H.hash (climbInput params current step) := by
  rw [climbStep, climbInput]
  split <;> rfl

theorem climb_concat (leafHash : Bytes) (siblings : List (Bytes × Bool)) (last : Bytes × Bool) :
    climb H params leafHash (siblings ++ [last]) = climbStep H params (climb H params leafHash siblings) last := by
  rw [climb, List.foldl_concat]
  rfl

theorem climbInputs_concat (leafHash : Bytes) (siblings : List (Bytes × Bool)) (last : Bytes × Bool) :
    climbInputs H params leafHash (siblings ++ [last]) =
      climbInputs H params leafHash siblings ++ [climbInput params (climb H params leafHash siblings) last] := by
  induction siblings generalizing leafHash with
  | nil => rfl
  | cons step rest ih =>
    rw [List.cons_append, climbInputs, climbInputs, ih]
    rfl

theorem length_climb (input : Bytes) (siblings : List (Bytes × Bool)) :
    (climb H params (H.hash input) siblings).length = 32 := by
  induction siblings using List.reverseRecOn with
  | nil => exact H.length_hash input
  | append_singleton siblings last ih =>
    rw [climb_concat, climbStep_eq]
    exact H.length_hash _

variable {H params}

variable {S : Set Bytes}

theorem follow_of_climb (hInj : Set.InjOn H.hash S) (hInput : input ∈ S)
    (hDomain : input.head? ≠ some params.interiorDomain) {siblings : List (Bytes × Bool)}
    (hChain : ∀ x ∈ climbInputs H params (H.hash input) siblings, x ∈ S) (hLength : ∀ step ∈ siblings, step.1.length = 32)
    {t : Tree} (hIn : ∀ x ∈ t.inputs H params, x ∈ S) (hLeaf : ∀ x ∈ t.leaves, x.head? ≠ some params.interiorDomain)
    (hRoot : climb H params (H.hash input) siblings = t.root H params) :
    t.follow (siblings.map Prod.snd).reverse = some (.leaf input) := by
  -- from the top: the last step of the climb hashed the two children of the root
  induction siblings using List.reverseRecOn generalizing t with
  | nil =>
    cases t with
    | leaf other =>
      have hEq := hInj hInput (hIn other List.mem_cons_self) hRoot
      rw [hEq]
      rfl
    | node left right =>
      have hEq := hInj hInput (hIn _ List.mem_cons_self) hRoot
      exact absurd (congrArg List.head? hEq) hDomain
  | append_singleton siblings last ih =>
    rw [climbInputs_concat, List.forall_mem_append] at hChain
    rw [List.forall_mem_append] at hLength
    rw [climb_concat, climbStep_eq] at hRoot
    have hTop := hChain.2 _ (List.mem_singleton_self _)
    have hLast := hLength.2 last (List.mem_singleton_self _)
    cases t with
    | leaf other =>
      have hEq := hInj hTop (hIn other List.mem_cons_self) hRoot
      exact absurd (congrArg List.head? hEq.symm) (hLeaf other List.mem_cons_self)
    | node left right =>
      have hEq := hInj hTop (hIn _ List.mem_cons_self) hRoot
      simp only [Tree.inputs, Tree.leaves, List.forall_mem_cons, List.forall_mem_append] at hIn hLeaf
      rw [List.map_append, List.reverse_append, List.map_singleton, List.reverse_singleton, List.singleton_append]
      rw [climbInput] at hEq
      replace hEq := (List.cons.inj hEq).2
      have hClimb := length_climb H params input siblings
      cases hSide : last.2 with
      | true =>
        rw [hSide, if_pos rfl] at hEq
        exact ih hChain.1 hLength.1 hIn.2.1 hLeaf.1 (List.append_inj hEq (hClimb.trans left.length_root.symm)).1
      | false =>
        rw [hSide, if_neg Bool.false_ne_true] at hEq
        exact ih hChain.1 hLength.1 hIn.2.2 hLeaf.2 (List.append_inj hEq (hLast.trans left.length_root.symm)).2

theorem position_of_verifyProof (proof : MerkleProof) {inputs : List Bytes}
    (hInj : Set.InjOn H.hash S) (hIn : ∀ x ∈ merkleInputs H params inputs, x ∈ S)
    (hLeaf : ∀ x ∈ inputs, x.head? ≠ some params.interiorDomain) (hNonempty : inputs ≠ [])
    (hInput : input ∈ S) (hDomain : input.head? ≠ some params.interiorDomain)
    (hChain : ∀ x ∈ climbInputs H params (H.hash input) proof.siblings, x ∈ S)
    (hLength : ∀ step ∈ proof.siblings, step.1.length = 32)
    (hVerify : verifyProof H params (merkleRoot H params (inputs.map H.hash)) (H.hash input) proof = true) :
    ∃ position, inputs[position]? = some input ∧
      (siblingsOf H params inputs.length (inputs.map H.hash) position).map Prod.snd = proof.siblings.map Prod.snd := by
  obtain ⟨hEmpty, -⟩ | ⟨t, hTrees, hLeaves, hRoot⟩ := merkleRoot_cases H params inputs
  · exact absurd hEmpty hNonempty
  · rw [merkleInputs, hTrees, List.flatMap_singleton] at hIn
    have hClimb := of_decide_eq_true hVerify
    have hFollow := follow_of_climb hInj hInput hDomain hChain hLength hIn (hLeaves ▸ hLeaf) (hClimb.trans hRoot)
    obtain ⟨position, sub, path, hSub, hRest, hPath⟩ := exists_position H params hTrees hFollow
    rw [List.getElem?_map, Option.map_eq_some_iff] at hSub
    obtain ⟨other, hOther, rfl⟩ := hSub
    cases path with
    | cons _ _ => exact absurd hRest (by simp [Tree.follow])
    | nil =>
      obtain rfl : other = input := by simpa using hRest
      refine ⟨position, hOther, ?_⟩
      rw [List.append_nil, List.map_map, List.reverse_inj] at hPath
      exact hPath.symm

variable {level : List Bytes}

theorem getElem?_nextLevel {idx : Nat} {current : Bytes} (h : level[idx]? = some current) :
    (nextLevel H params level)[idx / 2]? =
      some (match level[if idx % 2 = 0 then idx + 1 else idx - 1]? with
        | some sibling => climbStep H params current (sibling, decide (idx % 2 = 0))
        | none => current) := by
  fun_induction nextLevel H params level generalizing idx with
  | case1 a b rest ih =>
    obtain _ | _ | idx := idx
    · obtain rfl := Option.some.inj h
      rfl
    · obtain rfl := Option.some.inj h
      rfl
    · have hSibling : (if (idx + 2) % 2 = 0 then idx + 2 + 1 else idx + 2 - 1) =
          (if idx % 2 = 0 then idx + 1 else idx - 1) + 2 := by
        split_ifs <;> omega
      have hRest := ih h
      have hHalf : (idx + 1 + 1) / 2 = idx / 2 + 1 := by omega
      have hMod : (idx + 1 + 1) % 2 = idx % 2 := by omega
      rw [hSibling, hHalf, hMod]
      exact hRest
  | case2 tail hTail =>
    obtain _ | ⟨only, _ | ⟨b, rest⟩⟩ := tail
    · exact absurd h (by simp)
    · cases idx with
      | zero => exact h
      | succ _ => exact absurd h (by simp)
    · exact absurd rfl (hTail only b rest)

theorem climb_siblingsOf {fuel : Nat} {idx : Nat} {current root : Bytes}
    (h : level[idx]? = some current) (hRoot : collapse H params fuel level = [root]) :
    climb H params current (siblingsOf H params fuel level idx) = root := by
  induction fuel generalizing level idx current with
  | zero => exact List.mem_singleton.mp (hRoot ▸ List.mem_of_getElem? h)
  | succ fuel ih =>
    rw [collapse] at hRoot
    rw [siblingsOf]
    split_ifs at hRoot ⊢ with hMany
    · have hNext := ih (getElem?_nextLevel h) hRoot
      simp only [decide_eq_true_eq]
      cases hSibling : level[if idx % 2 = 0 then idx + 1 else idx - 1]? with
      | some sibling =>
        rw [hSibling] at hNext
        exact hNext
      | none =>
        rw [hSibling] at hNext
        exact hNext
    · exact List.mem_singleton.mp (hRoot ▸ List.mem_of_getElem? h)

theorem length_collapse_pos (fuel : Nat) (h : 0 < level.length) :
    0 < (collapse H params fuel level).length := by
  induction fuel generalizing level with
  | zero => exact h
  | succ fuel ih =>
    rw [collapse]
    split_ifs
    · exact ih (by rw [length_nextLevel]; omega)
    · exact h

theorem verifyProof_buildProof {leaves : List Bytes} {index : UInt32} (h : index.toNat < leaves.length) :
    ∃ proof, buildProof H params leaves index = some proof ∧
      verifyProof H params (merkleRoot H params leaves) leaves[index.toNat] proof = true := by
  refine ⟨_, buildProof_of_lt H params leaves index h, decide_eq_true ?_⟩
  have hNonempty : 0 < (collapse H params leaves.length leaves).length :=
    length_collapse_pos leaves.length (Nat.zero_lt_of_lt h)
  have hLength := length_collapse H params leaves.length leaves (Nat.le_succ _)
  obtain ⟨root, hRoot⟩ := List.length_eq_one_iff.mp (Nat.le_antisymm hLength hNonempty)
  rw [merkleRoot, hRoot]
  exact climb_siblingsOf (List.getElem?_eq_getElem h) hRoot

def leafInput (leaf : UInt8 × Bytes) : Bytes := leaf.1 :: leaf.2

variable (H) in
def taggedHashes (leaves : List (UInt8 × Bytes)) : List Bytes := leaves.map fun leaf => hashLeafTagged H leaf.1 leaf.2

variable (H params) in
/-- Leaves under leaf domains whose tree takes its digests in `S`. -/
structure TaggedIn (leafDomains : Set UInt8) (S : Set Bytes) (leaves : List (UInt8 × Bytes)) : Prop where
  domains : ∀ leaf ∈ leaves, leaf.1 ∈ leafDomains
  inputs : ∀ x ∈ merkleInputs H params (leaves.map leafInput), x ∈ S

theorem taggedHashes_eq (leaves : List (UInt8 × Bytes)) : taggedHashes H leaves = (leaves.map leafInput).map H.hash := by
  rw [taggedHashes, List.map_map]
  rfl

theorem leafInput_head_ne {leafDomains : Set UInt8} {leaf : UInt8 × Bytes} (hDomain : params.interiorDomain ∉ leafDomains)
    (hLeaf : leaf.1 ∈ leafDomains) : (leafInput leaf).head? ≠ some params.interiorDomain := by
  intro hEq
  have hSame : leaf.1 = params.interiorDomain := Option.some.inj hEq
  exact hDomain (hSame ▸ hLeaf)

theorem TaggedIn.head_ne {leafDomains : Set UInt8} {leaves : List (UInt8 × Bytes)}
    (hDomain : params.interiorDomain ∉ leafDomains) (h : TaggedIn H params leafDomains S leaves) :
    ∀ x ∈ leaves.map leafInput, x.head? ≠ some params.interiorDomain := by
  intro x hx
  obtain ⟨leaf, hLeaf, rfl⟩ := List.mem_map.mp hx
  exact leafInput_head_ne hDomain (h.domains leaf hLeaf)

theorem climb_ne_emptyRoot (hNonzero : ∀ x ∈ S, H.hash x ≠ emptyRoot) (hInput : input ∈ S)
    {siblings : List (Bytes × Bool)} (hChain : ∀ x ∈ climbInputs H params (H.hash input) siblings, x ∈ S) :
    climb H params (H.hash input) siblings ≠ emptyRoot := by
  cases siblings using List.reverseRecOn with
  | nil => exact hNonzero input hInput
  | append_singleton siblings last =>
    rw [climb_concat, climbStep_eq]
    rw [climbInputs_concat, List.forall_mem_append] at hChain
    exact hNonzero _ (hChain.2 _ (List.mem_singleton_self _))

theorem merkle_binds_and_proves {S : Set Bytes} {leafDomains : Set UInt8} (hDomain : params.interiorDomain ∉ leafDomains)
    (hInj : Set.InjOn H.hash S) (hNonzero : ∀ x ∈ S, H.hash x ≠ emptyRoot) :
    (∀ leaves leaves', TaggedIn H params leafDomains S leaves → TaggedIn H params leafDomains S leaves' →
      merkleRoot H params (taggedHashes H leaves) = merkleRoot H params (taggedHashes H leaves') →
      taggedHashes H leaves = taggedHashes H leaves') ∧
    (∀ (leaves : List Bytes) (index : UInt32) (h : index.toNat < leaves.length),
      ∃ proof, buildProof H params leaves index = some proof ∧
        verifyProof H params (merkleRoot H params leaves) leaves[index.toNat] proof = true) ∧
    ∀ leaves leaf proof, TaggedIn H params leafDomains S leaves → leaf.1 ∈ leafDomains → leafInput leaf ∈ S →
      (∀ x ∈ climbInputs H params (hashLeafTagged H leaf.1 leaf.2) proof.siblings, x ∈ S) →
      (∀ step ∈ proof.siblings, step.1.length = 32) →
      verifyProof H params (merkleRoot H params (taggedHashes H leaves)) (hashLeafTagged H leaf.1 leaf.2) proof = true →
      hashLeafTagged H leaf.1 leaf.2 ∈ taggedHashes H leaves := by
  refine ⟨fun leaves leaves' hIn hIn' hRoot => ?_, fun leaves index h => verifyProof_buildProof h, ?_⟩
  · rw [taggedHashes_eq, taggedHashes_eq] at hRoot ⊢
    rw [eq_of_merkleRoot_eq hInj hIn.inputs hIn'.inputs hNonzero (hIn.head_ne hDomain) (hIn'.head_ne hDomain) hRoot]
  · intro leaves leaf proof hIn hLeaf hInput hChain hLength hVerify
    rw [taggedHashes_eq] at hVerify ⊢
    by_cases hNonempty : leaves.map leafInput = []
    · rw [hNonempty] at hVerify
      exact absurd (of_decide_eq_true hVerify) (climb_ne_emptyRoot hNonzero hInput hChain)
    · obtain ⟨position, hAt, -⟩ := position_of_verifyProof proof hInj hIn.inputs (hIn.head_ne hDomain) hNonempty hInput
        (leafInput_head_ne hDomain hLeaf) hChain hLength hVerify
      exact List.mem_map_of_mem (List.mem_of_getElem? hAt)

/-! A tree of two leaves, domains 1 below and 2 above. -/

def pairLeaves : List (UInt8 × Bytes) := [(1, [7]), (1, [8])]

theorem pairLeaves_committed :
    TaggedIn paddingDigest ⟨2⟩ {1} {x | x ∈ merkleInputs paddingDigest ⟨2⟩ (pairLeaves.map leafInput)} pairLeaves ∧
    (∃ proof, buildProof paddingDigest ⟨2⟩ (taggedHashes paddingDigest pairLeaves) 1 = some proof ∧
      verifyProof paddingDigest ⟨2⟩ (merkleRoot paddingDigest ⟨2⟩ (taggedHashes paddingDigest pairLeaves))
        (hashLeafTagged paddingDigest 1 [8]) proof = true) := by
  have hInj : Set.InjOn paddingDigest.hash {x | x ∈ merkleInputs paddingDigest ⟨2⟩ (pairLeaves.map leafInput)} := by
    intro x hx y hy
    revert x y
    simp only [Set.mem_ofPred_eq]
    decide
  refine ⟨⟨by decide, fun x hx => hx⟩, ?_⟩
  exact (merkle_binds_and_proves (by decide : (⟨2⟩ : MerkleParams).interiorDomain ∉ ({1} : Set UInt8)) hInj
    (by simp only [Set.mem_ofPred_eq]; decide)).2.1 (taggedHashes paddingDigest pairLeaves) 1 (by decide)

end F1r3Node.Crypto.Merkle
