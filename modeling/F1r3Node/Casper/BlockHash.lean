import F1r3Node.Casper.BlockMessage
import Mathlib.Logic.Equiv.List
import Mathlib.Tactic.DeriveEncodable

/-! # What the block hash commits to

The header preimage joins fields of variable length without their lengths, so it binds them one by one only among
blocks in which the fields have the same lengths.
-/

namespace F1r3Node.Casper

open Shared Crypto.Merkle

variable {D S : Type*}

namespace Validate

def formatOfFields (b : BlockMessage D S) : Bool :=
  if b.blockHash.isEmpty then false
  else if b.sig.isEmpty then false
  else if b.sigAlgorithm.isEmpty then false
  else if b.shardId.isEmpty then false
  else if b.body.state.postStateHash.isEmpty then false
  else true

end Validate

section

variable (E : BlockCodec D S) (b b' : BlockMessage D S)

def deployInputs : List Bytes :=
  b.body.deploys.map (fun pd => leafProcessedDeploy :: E.processedDeployProto pd) ++
    b.body.systemDeploys.map fun psd => leafProcessedSystemDeploy :: E.processedSystemDeployProto psd

def rejectedInputs : List Bytes :=
  (sortByKey RejectedDeploy.sig b.body.rejectedDeploys).map fun r =>
    leafRejectedDeploy :: E.rejectedDeployProto r

def appliedFromScopeInputs : List Bytes :=
  (sortByKey id b.body.appliedFromScope).map (leafAppliedFromScopeSig :: ·)

def bondInputs : List Bytes :=
  (sortByKey Bond.validator b.body.state.bonds).map fun bond =>
    leafBond :: (bond.validator ++ toLeBytes 8 bond.stake.toInt)

def headerInput : Bytes := leafHeader :: headerPreimage E b

def topInput : Bytes :=
  topDomain :: (E.blake.hash (headerInput E b) ++ merkleRoot E.blake merkleParams (deploysRootLeaves E b))

def rootInputs : List (List Bytes) :=
  [deployInputs E b, rejectedInputs E b, appliedFromScopeInputs b, bondInputs b]

def hashedInputs : List Bytes :=
  topInput E b :: headerInput E b :: (rootInputs E b).flatMap (merkleInputs E.blake merkleParams)

structure BlockCodec.Injective : Prop where
  header : Function.Injective E.headerProto
  rejectedDeploy : Function.Injective E.rejectedDeployProto
  processedDeploy : Function.Injective E.processedDeployProto
  processedSystemDeploy : Function.Injective E.processedSystemDeployProto

/-- The digest has no collision among what the two hashes use and never returns the sentinel. -/
structure NoCollision : Prop where
  injOn : Set.InjOn E.blake.hash { x | x ∈ hashedInputs E b ∨ x ∈ hashedInputs E b' }
  nonzero : ∀ x ∈ { x | x ∈ hashedInputs E b ∨ x ∈ hashedInputs E b' }, E.blake.hash x ≠ emptyRoot

structure SameContent : Prop where
  header : b.header = b'.header
  preStateHash : b.body.state.preStateHash = b'.body.state.preStateHash
  postStateHash : b.body.state.postStateHash = b'.body.state.postStateHash
  blockNumber : b.body.state.blockNumber = b'.body.state.blockNumber
  mergeBase : b.body.mergeBase = b'.body.mergeBase
  bodyExtraBytes : b.body.extraBytes = b'.body.extraBytes
  extraBytes : b.extraBytes = b'.extraBytes
  sender : b.sender = b'.sender
  sigAlgorithm : b.sigAlgorithm = b'.sigAlgorithm
  seqNum : b.seqNum = b'.seqNum
  shardId : b.shardId = b'.shardId
  deploys : b.body.deploys = b'.body.deploys
  systemDeploys : b.body.systemDeploys = b'.body.systemDeploys
  bonds : b.body.state.bonds.Perm b'.body.state.bonds
  rejectedDeploys : b.body.rejectedDeploys.Perm b'.body.rejectedDeploys
  appliedFromScope : b.body.appliedFromScope.Perm b'.body.appliedFromScope

/-- Every field of variable length but the last has the same length in both preimages. -/
structure SameLengths : Prop where
  header : (E.headerProto b.header).length = (E.headerProto b'.header).length
  preStateHash : b.body.state.preStateHash.length = b'.body.state.preStateHash.length
  postStateHash : b.body.state.postStateHash.length = b'.body.state.postStateHash.length
  mergeBase : b.body.mergeBase.length = b'.body.mergeBase.length
  bodyExtraBytes : b.body.extraBytes.length = b'.body.extraBytes.length
  sender : b.sender.length = b'.sender.length
  sigAlgorithm : (asBytes b.sigAlgorithm).length = (asBytes b'.sigAlgorithm).length
  shardId : (asBytes b.shardId).length = (asBytes b'.shardId).length

end

variable {E : BlockCodec D S} {b b' : BlockMessage D S}

theorem deploysRootLeaves_eq : deploysRootLeaves E b = (deployInputs E b).map E.blake.hash := by
  rw [deploysRootLeaves, deployInputs, List.map_append, List.map_map, List.map_map]
  rfl

theorem rejectedRoot_eq :
    rejectedRoot E b = merkleRoot E.blake merkleParams ((rejectedInputs E b).map E.blake.hash) := by
  rw [rejectedInputs, List.map_map]
  rfl

theorem appliedFromScopeRoot_eq : appliedFromScopeRoot E b =
    merkleRoot E.blake merkleParams ((appliedFromScopeInputs b).map E.blake.hash) := by
  rw [appliedFromScopeInputs, List.map_map]
  rfl

theorem bondsRoot_eq : bondsRoot E b.body.state.bonds =
    merkleRoot E.blake merkleParams ((bondInputs b).map E.blake.hash) := by
  rw [bondInputs, List.map_map]
  rfl

theorem length_merkleRoot (H : Blake2b256) (params : MerkleParams) (inputs : List Bytes) :
    (merkleRoot H params (inputs.map H.hash)).length = 32 := by
  obtain ⟨-, hRoot⟩ | ⟨t, -, -, hRoot⟩ := merkleRoot_cases H params inputs
  · rw [hRoot]
    rfl
  · rw [hRoot, t.length_root]

theorem mod_eq_of_toLeBytes_eq {n : Nat} {x y : Int} (h : toLeBytes n x = toLeBytes n y) :
    x % 2 ^ (8 * n) = y % 2 ^ (8 * n) := by
  have hPos : (0 : Int) < 2 ^ (8 * n) := Int.pow_pos (by decide)
  have hBound : ∀ z : Int, (z % 2 ^ (8 * n)).toNat < 2 ^ (8 * n) := by
    intro z
    have hLt := Int.emod_lt_of_pos z hPos
    have hNonneg := Int.emod_nonneg z hPos.ne'
    rw [Int.toNat_lt hNonneg]
    push_cast
    exact hLt
  have hBytes : ∀ i < n, (x % 2 ^ (8 * n)).toNat / 2 ^ (8 * i) % 2 ^ 8 =
      (y % 2 ^ (8 * n)).toNat / 2 ^ (8 * i) % 2 ^ 8 := by
    intro i hi
    have hByte := List.map_inj_left.mp h i (List.mem_range.mpr hi)
    simpa using congrArg UInt8.toNat hByte
  have hNat : (x % 2 ^ (8 * n)).toNat = (y % 2 ^ (8 * n)).toNat := by
    apply Nat.eq_of_testBit_eq
    intro j
    by_cases hj : j < 8 * n
    · have hBit := congrArg (fun m => m.testBit (j % 8)) (hBytes (j / 8) (by omega))
      have hLow : j % 8 < 8 := by omega
      have hSplit : j % 8 + 8 * (j / 8) = j := by omega
      simpa only [Nat.testBit_mod_two_pow, Nat.testBit_div_two_pow, hLow, hSplit, decide_true,
        Bool.true_and] using hBit
    · have hLe : 2 ^ (8 * n) ≤ 2 ^ j := Nat.pow_le_pow_right (by decide) (by omega)
      rw [Nat.testBit_lt_two_pow ((hBound x).trans_le hLe), Nat.testBit_lt_two_pow ((hBound y).trans_le hLe)]
  have hx := Int.emod_nonneg x hPos.ne'
  have hy := Int.emod_nonneg y hPos.ne'
  omega

theorem int64_eq_of_bytes_eq {x y : Int64} (h : toLeBytes 8 x.toInt = toLeBytes 8 y.toInt) : x = y := by
  have hMod := mod_eq_of_toLeBytes_eq h
  have hx := x.le_toInt
  have hx' := x.toInt_lt
  have hy := y.le_toInt
  have hy' := y.toInt_lt
  apply Int64.toInt_inj.mp
  omega

theorem int32_eq_of_bytes_eq {x y : Int32} (h : toLeBytes 4 x.toInt = toLeBytes 4 y.toInt) : x = y := by
  have hMod := mod_eq_of_toLeBytes_eq h
  have hx := x.le_toInt
  have hx' := x.toInt_lt
  have hy := y.le_toInt
  have hy' := y.toInt_lt
  apply Int32.toInt_inj.mp
  omega

theorem bondInput_injective :
    Function.Injective fun bond : Bond => leafBond :: (bond.validator ++ toLeBytes 8 bond.stake.toInt) := by
  rintro ⟨validator, stake⟩ ⟨validator', stake'⟩ h
  obtain ⟨hValidator, hStake⟩ := List.append_inj' (List.cons.inj h).2 (by simp)
  rw [Bond.mk.injEq]
  exact ⟨hValidator, int64_eq_of_bytes_eq hStake⟩

theorem asBytes_injective {s t : String} (h : asBytes s = asBytes t) : s = t := by
  apply String.toByteArray_inj.mp
  exact ByteArray.ext (Array.toList_inj.mp h)

variable {α : Type*}

theorem map_append_injective {β γ : Type*} {f : α → γ} {g : β → γ} (hf : Function.Injective f)
    (hg : Function.Injective g) (hDisjoint : ∀ a b, f a ≠ g b) {as as' : List α} {bs bs' : List β}
    (h : as.map f ++ bs.map g = as'.map f ++ bs'.map g) : as = as' ∧ bs = bs' := by
  induction as generalizing as' with
  | nil =>
    cases as' with
    | nil => exact ⟨rfl, List.map_injective_iff.mpr hg h⟩
    | cons a' as' =>
      cases bs with
      | nil => cases h
      | cons b bs => exact absurd (List.cons.inj h).1.symm (hDisjoint a' b)
  | cons a as ih =>
    cases as' with
    | nil =>
      cases bs' with
      | nil => cases h
      | cons b' bs' => exact absurd (List.cons.inj h).1 (hDisjoint a b')
    | cons a' as' =>
      obtain ⟨hHead, hTail⟩ := List.cons.inj h
      obtain ⟨rfl, rfl⟩ := ih hTail
      exact ⟨by rw [hf hHead], rfl⟩

theorem perm_of_sortByKey_eq {key : α → Bytes} {l l' : List α} (h : sortByKey key l = sortByKey key l') : l.Perm l' :=
  (perm_sortByKey key l).symm.trans (h ▸ perm_sortByKey key l')

theorem tagged_of_map {tag : UInt8} (hTag : tag ≠ interiorDomain) {f : α → Bytes} (items : List α) :
    ∀ x ∈ items.map (fun a => tag :: f a), x.head? ≠ some interiorDomain := by
  intro x hx
  obtain ⟨a, -, rfl⟩ := List.mem_map.mp hx
  simpa using hTag

theorem tagged_rootInputs {inputs : List Bytes} (hMem : inputs ∈ rootInputs E b) :
    ∀ x ∈ inputs, x.head? ≠ some interiorDomain := by
  simp only [rootInputs, List.mem_cons, List.not_mem_nil, or_false] at hMem
  obtain rfl | rfl | rfl | rfl := hMem
  · exact List.forall_mem_append.mpr ⟨tagged_of_map (by decide) _, tagged_of_map (by decide) _⟩
  · exact tagged_of_map (by decide) _
  · exact tagged_of_map (by decide) _
  · exact tagged_of_map (by decide) _

section binding

variable (hCodec : E.Injective) (hSafe : NoCollision E b b')

include hSafe in
theorem inputs_eq_of_root_eq {inputs inputs' : List Bytes} (hMem : inputs ∈ rootInputs E b)
    (hMem' : inputs' ∈ rootInputs E b')
    (hRoot : merkleRoot E.blake merkleParams (inputs.map E.blake.hash) =
      merkleRoot E.blake merkleParams (inputs'.map E.blake.hash)) : inputs = inputs' := by
  have hHashed : ∀ {b : BlockMessage D S} {inputs}, inputs ∈ rootInputs E b →
      ∀ x ∈ merkleInputs E.blake merkleParams inputs, x ∈ hashedInputs E b := by
    intro b inputs hMem x hx
    exact List.mem_cons_of_mem _ (List.mem_cons_of_mem _ (List.mem_flatMap.mpr ⟨inputs, hMem, hx⟩))
  exact eq_of_merkleRoot_eq hSafe.injOn (fun x hx => .inl (hHashed hMem x hx))
    (fun x hx => .inr (hHashed hMem' x hx)) hSafe.nonzero (tagged_rootInputs hMem) (tagged_rootInputs hMem')
    hRoot

include hSafe in
theorem preimages_eq_of_hashBlock_eq (hHash : hashBlock E b = hashBlock E b') :
    headerPreimage E b = headerPreimage E b' ∧ deployInputs E b = deployInputs E b' := by
  have hTop : topInput E b = topInput E b' :=
    hSafe.injOn (.inl List.mem_cons_self) (.inr List.mem_cons_self) hHash
  obtain ⟨hHeader, hRoot⟩ := List.append_inj (List.cons.inj hTop).2
    ((E.blake.length_hash _).trans (E.blake.length_hash _).symm)
  constructor
  · have hInput := hSafe.injOn (.inl (List.mem_cons_of_mem _ List.mem_cons_self))
      (.inr (List.mem_cons_of_mem _ List.mem_cons_self)) hHeader
    exact (List.cons.inj hInput).2
  · rw [deploysRootLeaves_eq, deploysRootLeaves_eq] at hRoot
    exact inputs_eq_of_root_eq hSafe (by simp [rootInputs]) (by simp [rootInputs]) hRoot

include hCodec in
omit hSafe in
theorem deploys_eq_of_inputs_eq (hInputs : deployInputs E b = deployInputs E b') :
    b.body.deploys = b'.body.deploys ∧ b.body.systemDeploys = b'.body.systemDeploys := by
  refine map_append_injective (fun d d' h => ?_) (fun s s' h => ?_) (fun d s h => ?_) hInputs
  · exact hCodec.processedDeploy (List.cons.inj h).2
  · exact hCodec.processedSystemDeploy (List.cons.inj h).2
  · exact absurd (List.cons.inj h).1 (by decide)

theorem headerPreimage_eq : headerPreimage E b = blockHashSchemeVersion :: (E.headerProto b.header ++
    (b.body.state.preStateHash ++ (b.body.state.postStateHash ++ (bondsRoot E b.body.state.bonds ++
      (toLeBytes 8 b.body.state.blockNumber.toInt ++ (rejectedRoot E b ++ (appliedFromScopeRoot E b ++
        (b.body.mergeBase ++ (b.body.extraBytes ++ (b.sender ++ (asBytes b.sigAlgorithm ++
          (toLeBytes 4 b.seqNum.toInt ++ (asBytes b.shardId ++ b.extraBytes))))))))))))) := by
  simp only [headerPreimage, List.append_assoc, List.cons_append, List.nil_append]

include hSafe in
theorem bonds_perm_of_root_eq (hRoot : bondsRoot E b.body.state.bonds = bondsRoot E b'.body.state.bonds) :
    b.body.state.bonds.Perm b'.body.state.bonds := by
  rw [bondsRoot_eq, bondsRoot_eq] at hRoot
  have hInputs := inputs_eq_of_root_eq hSafe (by simp [rootInputs]) (by simp [rootInputs]) hRoot
  exact perm_of_sortByKey_eq (List.map_injective_iff.mpr bondInput_injective hInputs)

include hCodec hSafe in
theorem rejectedDeploys_perm_of_root_eq (hRoot : rejectedRoot E b = rejectedRoot E b') :
    b.body.rejectedDeploys.Perm b'.body.rejectedDeploys := by
  rw [rejectedRoot_eq, rejectedRoot_eq] at hRoot
  have hInputs := inputs_eq_of_root_eq hSafe (by simp [rootInputs]) (by simp [rootInputs]) hRoot
  refine perm_of_sortByKey_eq (List.map_injective_iff.mpr (fun x y h => ?_) hInputs)
  exact hCodec.rejectedDeploy (List.cons.inj h).2

include hSafe in
theorem appliedFromScope_perm_of_root_eq (hRoot : appliedFromScopeRoot E b = appliedFromScopeRoot E b') :
    b.body.appliedFromScope.Perm b'.body.appliedFromScope := by
  rw [appliedFromScopeRoot_eq, appliedFromScopeRoot_eq] at hRoot
  have hInputs := inputs_eq_of_root_eq hSafe (by simp [rootInputs]) (by simp [rootInputs]) hRoot
  exact perm_of_sortByKey_eq (List.map_injective_iff.mpr (fun x y h => (List.cons.inj h).2) hInputs)

include hCodec hSafe in
theorem sameContent_of_preimages_eq (hLengths : SameLengths E b b')
    (hPreimage : headerPreimage E b = headerPreimage E b') (hInputs : deployInputs E b = deployInputs E b') :
    SameContent b b' := by
  have hRoot : ∀ {inputs inputs' : List Bytes}, (merkleRoot E.blake merkleParams (inputs.map E.blake.hash)).length =
      (merkleRoot E.blake merkleParams (inputs'.map E.blake.hash)).length := by
    intro inputs inputs'
    rw [length_merkleRoot, length_merkleRoot]
  rw [headerPreimage_eq, headerPreimage_eq] at hPreimage
  obtain ⟨hHeader, h⟩ := List.append_inj (List.cons.inj hPreimage).2 hLengths.header
  obtain ⟨hPre, h⟩ := List.append_inj h hLengths.preStateHash
  obtain ⟨hPost, h⟩ := List.append_inj h hLengths.postStateHash
  obtain ⟨hBonds, h⟩ := List.append_inj h (by rw [bondsRoot_eq, bondsRoot_eq, hRoot])
  obtain ⟨hNumber, h⟩ := List.append_inj h (by simp)
  obtain ⟨hRejected, h⟩ := List.append_inj h (by rw [rejectedRoot_eq, rejectedRoot_eq, hRoot])
  obtain ⟨hApplied, h⟩ := List.append_inj h (by rw [appliedFromScopeRoot_eq, appliedFromScopeRoot_eq, hRoot])
  obtain ⟨hMergeBase, h⟩ := List.append_inj h hLengths.mergeBase
  obtain ⟨hBodyExtra, h⟩ := List.append_inj h hLengths.bodyExtraBytes
  obtain ⟨hSender, h⟩ := List.append_inj h hLengths.sender
  obtain ⟨hAlgorithm, h⟩ := List.append_inj h hLengths.sigAlgorithm
  obtain ⟨hSeqNum, h⟩ := List.append_inj h (by simp)
  obtain ⟨hShard, hExtra⟩ := List.append_inj h hLengths.shardId
  obtain ⟨hDeploys, hSystemDeploys⟩ := deploys_eq_of_inputs_eq hCodec hInputs
  exact ⟨hCodec.header hHeader, hPre, hPost, int64_eq_of_bytes_eq hNumber, hMergeBase, hBodyExtra, hExtra,
    hSender, asBytes_injective hAlgorithm, int32_eq_of_bytes_eq hSeqNum, asBytes_injective hShard, hDeploys,
    hSystemDeploys, bonds_perm_of_root_eq hSafe hBonds, rejectedDeploys_perm_of_root_eq hCodec hSafe hRejected,
    appliedFromScope_perm_of_root_eq hSafe hApplied⟩

end binding

/-- Blocks with one hash have the same deploys and system deploys; if the fields of variable length
have the same lengths in both, they agree on everything else that enters the hash. -/
theorem sameContent_of_hashBlock_eq (E : BlockCodec D S) (hCodec : E.Injective) {b b' : BlockMessage D S}
    (hSafe : NoCollision E b b') (hHash : hashBlock E b = hashBlock E b') :
    b.body.deploys = b'.body.deploys ∧ b.body.systemDeploys = b'.body.systemDeploys ∧
      (SameLengths E b b' → SameContent b b') := by
  obtain ⟨hPreimage, hInputs⟩ := preimages_eq_of_hashBlock_eq hSafe hHash
  obtain ⟨hDeploys, hSystemDeploys⟩ := deploys_eq_of_inputs_eq hCodec hInputs
  exact ⟨hDeploys, hSystemDeploys, fun hLengths =>
    sameContent_of_preimages_eq hCodec hSafe hLengths hPreimage hInputs⟩

def BlockMessage.reorder (b : BlockMessage D S) (rejected : List RejectedDeploy) (applied : List Bytes)
    (bonds : List Bond) : BlockMessage D S :=
  { b with
    body := { b.body with
      rejectedDeploys := rejected
      appliedFromScope := applied
      state := { b.body.state with bonds } } }

structure Reordering (b : BlockMessage D S) (rejected : List RejectedDeploy) (applied : List Bytes) (bonds : List Bond) :
    Prop where
  rejectedDeploys : rejected.Perm b.body.rejectedDeploys
  appliedFromScope : applied.Perm b.body.appliedFromScope
  bonds : bonds.Perm b.body.state.bonds

def HashOrderFree (E : BlockCodec D S) (b : BlockMessage D S) : Prop :=
  ∀ rejected applied bonds, Reordering b rejected applied bonds →
    hashBlock E (b.reorder rejected applied bonds) = hashBlock E b

structure KeysDecide (b : BlockMessage D S) : Prop where
  rejectedDeploys : ∀ r ∈ b.body.rejectedDeploys, ∀ r' ∈ b.body.rejectedDeploys, r.sig = r'.sig → r = r'
  bonds : ∀ x ∈ b.body.state.bonds, ∀ y ∈ b.body.state.bonds, x.validator = y.validator → x = y

theorem filter_sortByKey (key : α → Bytes) (k : Bytes) (l : List α) :
    (sortByKey key l).filter (key · = k) = l.filter (key · = k) := by
  have hSorted : (l.filter (key · = k)).Pairwise fun a b => key a ≤ key b := by
    refine List.pairwise_of_forall_mem_list fun a ha b hb => ?_
    rw [of_decide_eq_true (List.mem_filter.mp ha).2, of_decide_eq_true (List.mem_filter.mp hb).2]
    exact List.le_refl k
  have hSub := (List.sublist_insertionSort hSorted List.filter_sublist).filter (key · = k)
  rw [List.filter_filter] at hSub
  simp only [Bool.and_self] at hSub
  exact (hSub.eq_of_length ((perm_sortByKey key l).filter _).length_eq.symm).symm

theorem sortByKey_order_free_iff [DecidableEq α] {key : α → Bytes} {l : List α} :
    (∀ l' : List α, l'.Perm l → sortByKey key l' = sortByKey key l) ↔ ∀ a ∈ l, ∀ b ∈ l, key a = key b → a = b := by
  constructor
  · intro h a ha b hb hKey
    by_contra hNe
    have hPerm : (a :: b :: (l.erase a).erase b).Perm l :=
      ((List.perm_cons_erase ((List.mem_erase_of_ne (Ne.symm hNe)).mpr hb)).cons a).symm.trans
        (List.perm_cons_erase ha).symm
    have hSame := (h _ hPerm).trans (h _ ((List.Perm.swap a b _).trans hPerm)).symm
    -- among the records of one key the stable sort keeps the order
    have hFilter := congrArg (List.filter (key · = key a)) hSame
    simp only [filter_sortByKey, hKey, List.filter_cons, decide_true, if_true] at hFilter
    exact hNe (List.cons.inj hFilter).1
  · intro h l' hPerm
    refine List.Perm.eq_of_pairwise (fun a b ha hb hab hba => ?_) (List.pairwise_insertionSort _ _)
      (List.pairwise_insertionSort _ _) ?_
    · exact h a (hPerm.subset ((perm_sortByKey key l').subset ha)) b ((perm_sortByKey key l).subset hb)
        (List.le_antisymm hab hba)
    · exact (perm_sortByKey key l').trans (hPerm.trans (perm_sortByKey key l).symm)

theorem KeysDecide.hashedInputs_reorder (E : BlockCodec D S) (h : KeysDecide b) {rejected : List RejectedDeploy}
    {applied : List Bytes} {bonds : List Bond} (hOrder : Reordering b rejected applied bonds) :
    hashedInputs E (b.reorder rejected applied bonds) = hashedInputs E b := by
  have hRejected := sortByKey_order_free_iff.mpr h.rejectedDeploys rejected hOrder.rejectedDeploys
  have hBonds := sortByKey_order_free_iff.mpr h.bonds bonds hOrder.bonds
  have hApplied : sortByKey id applied = sortByKey id b.body.appliedFromScope :=
    sortByKey_order_free_iff.mpr (fun _ _ _ _ hKey => hKey) applied hOrder.appliedFromScope
  simp only [hashedInputs, topInput, headerInput, headerPreimage, rootInputs, bondsRoot, rejectedRoot, appliedFromScopeRoot,
    deployInputs, rejectedInputs, appliedFromScopeInputs, bondInputs, deploysRootLeaves, BlockMessage.reorder, hRejected,
    hBonds, hApplied]

theorem KeysDecide.hashOrderFree (E : BlockCodec D S) (h : KeysDecide b) : HashOrderFree E b := by
  intro rejected applied bonds hOrder
  exact congrArg E.blake.hash (List.cons.inj (h.hashedInputs_reorder E hOrder)).1

theorem hashOrderFree_iff (E : BlockCodec D S) (hCodec : E.Injective) {b : BlockMessage D S}
    (hSafe : ∀ rejected applied bonds, Reordering b rejected applied bonds →
      NoCollision E (b.reorder rejected applied bonds) b) : HashOrderFree E b ↔ KeysDecide b := by
  refine ⟨fun h => ?_, KeysDecide.hashOrderFree E⟩
  have hInputs : ∀ {rejected applied bonds}, Reordering b rejected applied bonds →
      bondInputs (b.reorder rejected applied bonds) = bondInputs b ∧
        rejectedInputs E (b.reorder rejected applied bonds) = rejectedInputs E b := by
    intro rejected applied bonds hOrder
    have hPreimage := (preimages_eq_of_hashBlock_eq (hSafe _ _ _ hOrder) (h _ _ _ hOrder)).1
    rw [headerPreimage_eq, headerPreimage_eq, bondsRoot_eq, bondsRoot_eq, rejectedRoot_eq, rejectedRoot_eq] at hPreimage
    obtain ⟨hBonds, hRest⟩ := List.append_inj (List.append_cancel_left (List.append_cancel_left
      (List.append_cancel_left (List.cons.inj hPreimage).2))) (by rw [length_merkleRoot, length_merkleRoot])
    obtain ⟨hRejected, -⟩ := List.append_inj (List.append_cancel_left hRest) (by rw [length_merkleRoot, length_merkleRoot])
    exact ⟨inputs_eq_of_root_eq (hSafe _ _ _ hOrder) (by simp [rootInputs]) (by simp [rootInputs]) hBonds,
      inputs_eq_of_root_eq (hSafe _ _ _ hOrder) (by simp [rootInputs]) (by simp [rootInputs]) hRejected⟩
  constructor
  · refine sortByKey_order_free_iff.mp fun rejected hPerm => ?_
    exact List.map_injective_iff.mpr (fun x y hxy => hCodec.rejectedDeploy (List.cons.inj hxy).2)
      (hInputs ⟨hPerm, .rfl, .rfl⟩).2
  · refine sortByKey_order_free_iff.mp fun bonds hPerm => ?_
    exact List.map_injective_iff.mpr bondInput_injective (hInputs ⟨.rfl, .rfl, hPerm⟩).1

instance instEncodableInt64 : Encodable Int64 := Encodable.ofLeftInverse Int64.toInt Int64.ofInt fun _ => Int64.ofInt_toInt _

deriving instance Encodable for Header, RejectedDeploy

def unaryCodec : BlockCodec Unit Unit where
  blake := paddingDigest
  headerProto h := List.replicate (Encodable.encode h) 0
  rejectedDeployProto r := List.replicate (Encodable.encode r) 0
  processedDeployProto _ := []
  processedSystemDeployProto _ := []

theorem unaryCodec_injective : unaryCodec.Injective where
  header _ _ h := Encodable.encode_injective (by simpa [unaryCodec] using h)
  rejectedDeploy _ _ h := Encodable.encode_injective (by simpa [unaryCodec] using h)
  processedDeploy _ _ _ := rfl
  processedSystemDeploy _ _ _ := rfl

def bondedBlock : BlockMessage Unit Unit where
  blockHash := [1]
  header := ⟨[[1]], 0, 1, []⟩
  body := ⟨⟨[2], [3], [⟨[5], 1⟩, ⟨[6], 2⟩], 1⟩, [], [], [], [9], [], []⟩
  justifications := []
  sender := [7]
  seqNum := 1
  sig := [8]
  sigAlgorithm := "secp256k1"
  shardId := "root"
  extraBytes := []

def rebondedBlock : BlockMessage Unit Unit :=
  { bondedBlock with body := { bondedBlock.body with state := ⟨[2], [3], [⟨[6], 2⟩, ⟨[5], 1⟩], 1⟩ } }

def shiftedBlock : BlockMessage Unit Unit :=
  { bondedBlock with
    body := { bondedBlock.body with extraBytes := [] }
    sender := [9, 7] }

theorem headerPreimage_shiftedBlock :
    headerPreimage unaryCodec shiftedBlock = headerPreimage unaryCodec bondedBlock := by
  rw [headerPreimage_eq, headerPreimage_eq, show shiftedBlock.header = bondedBlock.header from rfl]
  generalize unaryCodec.headerProto bondedBlock.header = header
  rfl

theorem hashedInputs_shiftedBlock :
    hashedInputs unaryCodec shiftedBlock = hashedInputs unaryCodec bondedBlock := by
  rw [hashedInputs, hashedInputs, topInput, topInput, headerInput, headerInput, headerPreimage_shiftedBlock]
  rfl

theorem hashedInputs_rebondedBlock :
    hashedInputs unaryCodec rebondedBlock = hashedInputs unaryCodec bondedBlock := rfl

theorem heads_hashedInputs : (hashedInputs unaryCodec bondedBlock).map
    (fun x => (paddingDigest.hash x).take 2) = [[2, 18], [18, 1], [1, 21], [21, 5], [21, 6]] := by
  obtain ⟨rest, hRest⟩ : ∃ rest, headerPreimage unaryCodec bondedBlock = blockHashSchemeVersion :: rest :=
    ⟨_, headerPreimage_eq⟩
  rw [hashedInputs, topInput, headerInput, hRest]
  rfl

theorem noCollision_bondedBlock {b : BlockMessage Unit Unit}
    (hSame : hashedInputs unaryCodec b = hashedInputs unaryCodec bondedBlock) :
    NoCollision unaryCodec b bondedBlock := by
  have hNodup : ((hashedInputs unaryCodec bondedBlock).map fun x => (paddingDigest.hash x).take 2).Nodup := by
    rw [heads_hashedInputs]
    decide
  constructor
  · rw [hSame]
    intro x hx y hy hEq
    simp only [or_self, Set.mem_ofPred_eq] at hx hy
    exact List.inj_on_of_nodup_map hNodup hx hy (congrArg (List.take 2) hEq)
  · rw [hSame]
    intro x hx hZero
    simp only [or_self, Set.mem_ofPred_eq] at hx
    have hHead := List.mem_map_of_mem (f := fun x => (paddingDigest.hash x).take 2) hx
    rw [heads_hashedInputs] at hHead
    replace hZero : paddingDigest.hash x = emptyRoot := hZero
    simp only [hZero] at hHead
    exact absurd hHead (by decide)

theorem sameContent_rebondedBlock :
    hashBlock unaryCodec rebondedBlock = hashBlock unaryCodec bondedBlock ∧
      rebondedBlock.body.state.bonds ≠ bondedBlock.body.state.bonds ∧ SameContent rebondedBlock bondedBlock := by
  have hHash : hashBlock unaryCodec rebondedBlock = hashBlock unaryCodec bondedBlock := rfl
  refine ⟨hHash, by decide, ?_⟩
  exact (sameContent_of_hashBlock_eq unaryCodec unaryCodec_injective
    (noCollision_bondedBlock hashedInputs_rebondedBlock) hHash).2.2 ⟨rfl, rfl, rfl, rfl, rfl, rfl, rfl, rfl⟩

/-- Two well-formed blocks with one hash whose senders differ. -/
theorem shiftedBlock_same_hash_other_sender :
    unaryCodec.Injective ∧ NoCollision unaryCodec shiftedBlock bondedBlock ∧
      Validate.formatOfFields shiftedBlock = true ∧ Validate.formatOfFields bondedBlock = true ∧
      hashBlock unaryCodec shiftedBlock = hashBlock unaryCodec bondedBlock ∧
      ¬ SameContent shiftedBlock bondedBlock := by
  refine ⟨unaryCodec_injective, noCollision_bondedBlock hashedInputs_shiftedBlock, by decide, by decide, ?_, ?_⟩
  · rw [hashBlock, hashBlock, hashBlockWithLeaves, hashBlockWithLeaves, headerPreimage_shiftedBlock]
    rfl
  · intro hSame
    exact absurd hSame.sender (by decide)

/-- A digest of three times the number so far and the next byte, for an example in which every byte tells. -/
def foldingDigest : Blake2b256 where
  hash b := toLeBytes 32 (b.foldl (fun n x => 3 * n + x.toNat) 1)
  length_hash _ := length_toLeBytes _ _

def plainCodec : BlockCodec Unit Unit where
  blake := foldingDigest
  headerProto h := h.parentsHashList.flatten
  rejectedDeployProto r := r.sig ++ (if r.duplicate then 1 else 0) :: r.carrier
  processedDeployProto _ := []
  processedSystemDeployProto _ := []

def twiceRejectedBlock : BlockMessage Unit Unit := bondedBlock.reorder [⟨[4], false, [1]⟩, ⟨[4], true, [2]⟩] [] []

theorem twiceRejectedBlock_not_hashOrderFree :
    Validate.formatOfFields twiceRejectedBlock = true ∧ ¬ HashOrderFree plainCodec twiceRejectedBlock := by
  refine ⟨by decide, fun h => ?_⟩
  have hSwap := h [⟨[4], true, [2]⟩, ⟨[4], false, [1]⟩] [] [] ⟨List.Perm.swap _ _ [], .rfl, .rfl⟩
  exact absurd hSwap (by decide +kernel)

theorem bondedBlock_hashOrderFree : HashOrderFree unaryCodec bondedBlock := by
  have hKeys : KeysDecide bondedBlock := ⟨by decide, by decide⟩
  exact (hashOrderFree_iff unaryCodec unaryCodec_injective fun _ _ _ hOrder =>
    noCollision_bondedBlock (hKeys.hashedInputs_reorder unaryCodec hOrder)).mpr hKeys

end F1r3Node.Casper
