import F1r3Node.Dag.ForkChoiceMajority
import F1r3Node.Dag.ParentSelection

/-! # When a proposal builds on the head of the fork choice

The first parent of a proposal is a latest message, so it has the head on its spine exactly when it is the head.
-/

namespace F1r3Node.Dag

open Shared Lib Estimator KeyValueDagRepresentation

variable {dag : KeyValueDagRepresentation}

theorem eq_head_of_onSpine {messages : List (Bytes × Bytes)} {lca : Bytes} {scores : Scores}
    (h : buildScoresMap dag messages lca = .ok scores)
    (hHeld : ∀ message ∈ messages, ∃ m, dag.lookup message.2 = some m) {message : Bytes × Bytes}
    (hMessage : message ∈ messages)
    (hOn : dag.OnSpine (descend dag scores dag.records.length lca) message.2) :
    descend dag scores dag.records.length lca = message.2 := by
  obtain ⟨m, hLca, hScored⟩ := buildScoresMap_visits h hHeld hMessage
  by_contra hNe
  obtain ⟨child, hParent, hChild⟩ := hOn.exists_child hNe
  obtain ⟨c, hc, -⟩ := mainParent_eq_some.mp hParent
  obtain ⟨mh, hmh⟩ : ∃ mh, dag.lookup (descend dag scores dag.records.length lca) = some mh :=
    lookup_descend hLca dag.records.length
  have hAbove : m.blockNumber ≤ mh.blockNumber := by
    refine (descend_invariant (P := fun head => dag.OnSpine lca head) ?_ _ (.refl lca)).blockNumber_le hLca hmh
    intro head child rest hHead hSort
    exact hHead.trans (Relation.ReflTransGen.single (mainParent_of_sort hSort))
  have hHeight := blockNumber_lt_of_mainParent hc hmh hParent
  have hMem : child ∈ scoredMainChildren dag (descend dag scores dag.records.length lca) scores :=
    mem_scoredMainChildren.mpr ⟨(hScored child (credited_of_onSpine hChild hc (by omega))).1, hParent⟩
  rw [scoredMainChildren_descend hLca (countAbove_le m.blockNumber)] at hMem
  cases hMem

namespace ParentSelection

variable {a b : StoredBlock}

theorem sortsBefore_iff {head : Option Bytes} :
    sortsBefore head a b = true ↔ head = some a.blockHash ∧ ¬ head = some b.blockHash ∨
      (head = some a.blockHash ↔ head = some b.blockHash) ∧ a.blockHash ≤ b.blockHash :=
  decide_eq_true_iff

instance (head : Option Bytes) : Std.Total fun a b => sortsBefore head a b = true where
  total a b := by
    rw [sortsBefore_iff, sortsBefore_iff]
    rcases List.le_total a.blockHash b.blockHash with hLe | hLe <;> tauto

instance (head : Option Bytes) : IsTrans StoredBlock fun a b => sortsBefore head a b = true where
  trans a b c hab hbc := by
    rw [sortsBefore_iff] at hab hbc ⊢
    have hTrans : a.blockHash ≤ b.blockHash → b.blockHash ≤ c.blockHash → a.blockHash ≤ c.blockHash := List.le_trans
    tauto

def othersByHash (head : Bytes) (blocks : List StoredBlock) : List StoredBlock :=
  (blocks.filter (·.blockHash ≠ head)).insertionSort fun a b => a.blockHash ≤ b.blockHash

theorem mem_othersByHash {head : Bytes} {blocks : List StoredBlock} :
    b ∈ othersByHash head blocks ↔ b ∈ blocks ∧ b.blockHash ≠ head := by
  rw [othersByHash, List.mem_insertionSort, List.mem_filter, decide_eq_true_iff]

instance : Std.Total fun a b : StoredBlock => a.blockHash ≤ b.blockHash where
  total a b := List.le_total a.blockHash b.blockHash

instance : IsTrans StoredBlock fun a b => a.blockHash ≤ b.blockHash where
  trans _ _ _ hab hbc := List.le_trans hab hbc

theorem eq_of_blockHash_eq {blocks : List StoredBlock} (hNodup : (blocks.map (·.blockHash)).Nodup)
    (ha : a ∈ blocks) (hb : b ∈ blocks) (h : a.blockHash = b.blockHash) : a = b :=
  List.inj_on_of_nodup_map hNodup ha hb h

variable {h : StoredBlock}

theorem insertionSort_sortsBefore {blocks : List StoredBlock} (hNodup : (blocks.map (·.blockHash)).Nodup)
    (hMem : h ∈ blocks) :
    (blocks.insertionSort fun a b => sortsBefore (some h.blockHash) a b) = h :: othersByHash h.blockHash blocks := by
  have hOthers : ∀ b ∈ othersByHash h.blockHash blocks, ¬ some h.blockHash = some b.blockHash := fun b hb hEq =>
    (mem_othersByHash.mp hb).2 (Option.some.inj hEq).symm
  have hFilter : (h :: blocks.filter (·.blockHash ≠ h.blockHash)).Perm blocks := by
    have hOnly : blocks.filter (·.blockHash = h.blockHash) = [h] := by
      have hNodup' : (blocks.filter (·.blockHash = h.blockHash)).Nodup := (hNodup.of_map _).filter _
      refine List.perm_singleton.mp ((List.perm_ext_iff_of_nodup hNodup' (List.nodup_singleton h)).mpr fun b => ?_)
      rw [List.mem_filter, List.mem_singleton, decide_eq_true_iff]
      constructor
      · rintro ⟨hb, hEq⟩
        exact eq_of_blockHash_eq hNodup hb hMem hEq
      · rintro rfl
        exact ⟨hMem, rfl⟩
    have hSplit := List.filter_append_perm (fun b : StoredBlock => decide (b.blockHash = h.blockHash)) blocks
    rw [hOnly] at hSplit
    simpa using hSplit
  have hPerm : (blocks.insertionSort fun a b => sortsBefore (some h.blockHash) a b).Perm
      (h :: othersByHash h.blockHash blocks) :=
    (List.perm_insertionSort _ blocks).trans
      (hFilter.symm.trans (List.Perm.cons h (List.perm_insertionSort _ _).symm))
  have hSorted : (h :: othersByHash h.blockHash blocks).Pairwise
      fun a b => sortsBefore (some h.blockHash) a b = true := by
    refine List.pairwise_cons.mpr ⟨fun b hb => sortsBefore_iff.mpr (.inl ⟨rfl, hOthers b hb⟩), ?_⟩
    refine (List.pairwise_insertionSort (fun a b : StoredBlock => a.blockHash ≤ b.blockHash) _).imp_of_mem ?_
    intro a b ha hb hLe
    exact sortsBefore_iff.mpr (.inr ⟨iff_of_false (hOthers a ha) (hOthers b hb), hLe⟩)
  refine hPerm.eq_of_pairwise (fun a b ha hb hab hba => ?_) (List.pairwise_insertionSort _ blocks) hSorted
  have hLe : a.blockHash = b.blockHash := by
    rw [sortsBefore_iff] at hab hba
    have hAntisymm : a.blockHash ≤ b.blockHash → b.blockHash ≤ a.blockHash → a.blockHash = b.blockHash :=
      List.le_antisymm
    tauto
  have hb' : b ∈ blocks := (List.mem_insertionSort _).mp (hPerm.mem_iff.mpr hb)
  exact eq_of_blockHash_eq hNodup ((List.mem_insertionSort _).mp ha) hb' hLe

def Collapses (dag : KeyValueDagRepresentation) (blocks : List StoredBlock) (candidate : StoredBlock) : Prop :=
  candidate.deploys = [] ∧ ∀ other ∈ blocks, covers dag candidate other = true

theorem collapses_iff {blocks : List StoredBlock} {candidate : StoredBlock} :
    (candidate.deploys.isEmpty && blocks.all (covers dag candidate)) = true ↔ Collapses dag blocks candidate := by
  rw [Bool.and_eq_true, List.isEmpty_iff, List.all_eq_true, Collapses]

theorem mem_of_mem_pruneDagCoveredParents {blocks : List StoredBlock}
    (h : b ∈ pruneDagCoveredParents dag blocks) : b ∈ blocks := by
  rw [pruneDagCoveredParents] at h
  split at h
  · exact h
  · split at h
    case h_1 candidate hFind =>
      rw [List.mem_singleton.mp h]
      exact List.mem_of_find?_eq_some hFind
    case h_2 => exact h

def capOf (maxNumberOfParents : Int) (blocks : List StoredBlock) : Nat :=
  if maxNumberOfParents = unlimitedParents then blocks.length else (maxNumberOfParents % 2 ^ 64).toNat

variable {maxNumberOfParents : Int}

theorem one_le_capOf
    (hCap : 1 ≤ maxNumberOfParents ∧ maxNumberOfParents < 2 ^ 31 ∨ maxNumberOfParents = unlimitedParents)
    {blocks : List StoredBlock} (hNe : blocks ≠ []) : 1 ≤ capOf maxNumberOfParents blocks := by
  rw [capOf]
  split
  · exact List.length_pos_iff.mpr hNe
  · rcases hCap with ⟨hLower, hUpper⟩ | hUnlimited
    · omega
    · contradiction

theorem limitCount_eq (own? : Option Bytes) (maxNumberOfParents : Int) (blocks : List StoredBlock) :
    limitCount own? maxNumberOfParents blocks =
      (promoteOwn own? (capOf maxNumberOfParents blocks) blocks).take (capOf maxNumberOfParents blocks) := by
  rw [limitCount, capOf]
  split
  · rw [promoteOwn, if_neg (Nat.lt_irrefl _), List.take_length]
  · rfl

theorem promoteOwn_cut {cap : Nat} {before after : List StoredBlock} {own : StoredBlock}
    (hNodup : ((before ++ own :: after).map (·.blockHash)).Nodup) (hCut : cap ≤ before.length) :
    promoteOwn (some own.blockHash) cap (before ++ own :: after) = own :: (before ++ after) := by
  have hIdx : (before ++ own :: after).findIdx? (·.blockHash = own.blockHash) = some before.length := by
    rw [List.findIdx?_append]
    have hNone : before.findIdx? (·.blockHash = own.blockHash) = none := by
      refine List.findIdx?_eq_none_iff.mpr fun b hb => decide_eq_false fun hEq => ?_
      rw [List.map_append, List.map_cons] at hNodup
      exact (List.nodup_append.mp hNodup).2.2 _ (List.mem_map.mpr ⟨b, hb, rfl⟩) _ List.mem_cons_self hEq
    rw [hNone, List.findIdx?_cons]
    simp
  have hLength : cap < (before ++ own :: after).length := by
    rw [List.length_append, List.length_cons]
    omega
  rw [promoteOwn, if_pos hLength, Option.bind_some, hIdx]
  dsimp only
  rw [if_pos hCut, List.getElem?_append_right (Nat.le_refl _), Nat.sub_self,
    List.eraseIdx_append_of_length_le (Nat.le_refl _), Nat.sub_self]
  rfl

theorem promoteOwn_kept {own? : Option Bytes} {cap : Nat} {blocks : List StoredBlock}
    (hKept : ∀ b ∈ blocks.drop cap, own? ≠ some b.blockHash) : promoteOwn own? cap blocks = blocks := by
  rw [promoteOwn]
  split
  · split
    · rfl
    case h_2 idx hIdx =>
      obtain ⟨own, rfl, hFind⟩ := Option.bind_eq_some_iff.mp hIdx
      split
      case isTrue hCut =>
        obtain ⟨hLt, hOwn, -⟩ := List.findIdx?_eq_some_iff_getElem.mp hFind
        refine absurd ?_ (hKept blocks[idx] ?_)
        · rw [of_decide_eq_true hOwn]
        · rw [List.mem_drop_iff_getElem]
          exact ⟨idx - cap, by omega, by simp [Nat.add_sub_cancel' hCut]⟩
      · rfl
  · rfl

def numberOf (dag : KeyValueDagRepresentation) (b : StoredBlock) : Int :=
  ((dag.lookup b.blockHash).map (·.blockNumber)).getD 0

def WithinDepth (dag : KeyValueDagRepresentation) (depth : Int) (cited : List StoredBlock) (b : StoredBlock) : Prop :=
  ∀ c ∈ cited, numberOf dag c - numberOf dag b ≤ depth

instance (depth : Int) (cited : List StoredBlock) : DecidablePred (WithinDepth dag depth cited) := fun b =>
  inferInstanceAs (Decidable (∀ c ∈ cited, numberOf dag c - numberOf dag b ≤ depth))

theorem foldl_max_le {ms : List (StoredBlock × BlockMetadata)} {start bound : Int} :
    ms.foldl (fun (top : Int) p => max top p.2.blockNumber) start ≤ bound ↔
      start ≤ bound ∧ ∀ p ∈ ms, p.2.blockNumber ≤ bound := by
  induction ms generalizing start with
  | nil => simp
  | cons p ms ih =>
    rw [List.foldl_cons, ih, List.forall_mem_cons, Int.max_le, and_assoc]

theorem limitDepth_eq {depth : Int} {blocks : List StoredBlock}
    (hHeld : ∀ b ∈ blocks, ∃ m, dag.lookup b.blockHash = some m) :
    limitDepth dag depth blocks = .ok (if depth ≠ unlimitedDepth ∧ 1 < blocks.length then
      blocks.filter fun b => WithinDepth dag depth blocks b else blocks) := by
  let withMeta : StoredBlock → StoredBlock × BlockMetadata := fun b =>
    (b, (dag.lookup b.blockHash).getD ⟨[], [], [], [], .empty, 0, 0, false, []⟩)
  have hNumber : ∀ b, (withMeta b).2.blockNumber = numberOf dag b := by
    intro b
    dsimp only [withMeta]
    rw [numberOf]
    cases dag.lookup b.blockHash <;> rfl
  have hMap : (blocks.mapM fun b => do
      let metadata ← dag.lookupUnsafe b.blockHash
      return (b, metadata)) = .ok (blocks.map withMeta) := by
    clear hNumber
    induction blocks with
    | nil => rfl
    | cons b blocks ih =>
      obtain ⟨⟨m, hm⟩, hRest⟩ := List.forall_mem_cons.mp hHeld
      rw [List.mapM_cons, ih hRest, lookupUnsafe, hm, List.map_cons]
      dsimp only [withMeta]
      rw [hm]
      rfl
  rw [limitDepth]
  split
  case isFalse => rfl
  case isTrue hLimited =>
    rw [hMap]
    refine congrArg Except.ok ?_
    rw [List.filter_map, List.map_map]
    have hId : (blocks.filter ((fun p => decide ((blocks.map withMeta).foldl
        (fun (top : Int) p => max top p.2.blockNumber) 0 - p.2.blockNumber ≤ depth)) ∘ withMeta)).map
        (Prod.fst ∘ withMeta) = blocks.filter ((fun p => decide ((blocks.map withMeta).foldl
        (fun (top : Int) p => max top p.2.blockNumber) 0 - p.2.blockNumber ≤ depth)) ∘ withMeta) := List.map_id _
    rw [hId]
    refine List.filter_congr fun b hb => decide_eq_decide.mpr ?_
    rw [hNumber, sub_le_iff_le_add, foldl_max_le, WithinDepth]
    constructor
    · rintro ⟨-, hAll⟩ c hc
      have hLe := hAll (withMeta c) (List.mem_map.mpr ⟨c, hc, rfl⟩)
      rw [hNumber] at hLe
      omega
    · intro hAll
      obtain ⟨m, hm⟩ := hHeld b hb
      have hNonneg := blockNumber_nonneg hm
      have hSelf := hAll b hb
      have hEq : numberOf dag b = m.blockNumber := by
        rw [numberOf, hm]
        rfl
      refine ⟨by omega, fun p hp => ?_⟩
      obtain ⟨c, hc, rfl⟩ := List.mem_map.mp hp
      have hLe := hAll c hc
      rw [hNumber]
      omega

/-- The blocks the count cap leaves beside the head `h`, given the others by hash, all within the cap or with the own
latest message pulled to the front. Of these the depth cap must keep the head and nothing ahead of it. -/
def StaysFirst (dag : KeyValueDagRepresentation) (conf : CasperShardConf) (own? : Option Bytes) (h : StoredBlock)
    (others : List StoredBlock) : Prop :=
  let cap := capOf conf.maxNumberOfParents (h :: others)
  let depth := conf.maxParentDepth
  (∀ o ∈ others.drop (cap - 1), own? ≠ some o.blockHash) ∧
      (others.take (cap - 1) = [] ∨ depth = unlimitedDepth ∨ WithinDepth dag depth (h :: others.take (cap - 1)) h) ∨
    ∃ o ∈ others.drop (cap - 1), own? = some o.blockHash ∧ 2 ≤ cap ∧ depth ≠ unlimitedDepth ∧
      WithinDepth dag depth (o :: h :: others.take (cap - 2)) h ∧
      ¬ WithinDepth dag depth (o :: h :: others.take (cap - 2)) o

/-- The head is a candidate, and it is the only one, it stands for all of them, or no other does and it keeps its
place under the caps. -/
def BuildsOnHead (dag : KeyValueDagRepresentation) (conf : CasperShardConf) (own? : Option Bytes) (head : Bytes)
    (blocks : List StoredBlock) : Prop :=
  ∃ h ∈ blocks, h.blockHash = head ∧
    (blocks = [h] ∨ Collapses dag blocks h ∨
      (∀ candidate ∈ blocks, ¬ Collapses dag blocks candidate) ∧
        StaysFirst dag conf own? h (othersByHash head blocks))

variable {others : List StoredBlock}

theorem limitCount_cut {own : StoredBlock}
    (hNodup : ((h :: others).map (·.blockHash)).Nodup) {k : Nat}
    (hCap : capOf maxNumberOfParents (h :: others) = k + 1) (hOwn : own ∈ others.drop k) :
    limitCount (some own.blockHash) maxNumberOfParents (h :: others) = (own :: h :: others.take (k - 1)).take (k + 1) := by
  obtain ⟨mid, after, hSplit⟩ := List.append_of_mem hOwn
  have hLength : k ≤ (others.take k ++ mid).length := by
    have hLt : k < others.length := by
      by_contra hGe
      rw [List.drop_eq_nil_of_le (by omega)] at hOwn
      cases hOwn
    rw [List.length_append, List.length_take]
    omega
  have hOthers : h :: others = (h :: (others.take k ++ mid)) ++ own :: after := by
    rw [List.cons_append, List.append_assoc, ← hSplit, List.take_append_drop]
  rw [limitCount_eq, hCap]
  rw [hOthers] at hNodup ⊢
  rw [promoteOwn_cut hNodup (by rw [List.length_cons]; omega), List.cons_append]
  cases k with
  | zero => rfl
  | succ k =>
    rw [List.take_succ_cons, List.take_succ_cons, List.take_succ_cons, List.take_succ_cons, Nat.add_sub_cancel,
      List.take_take, Nat.min_self, List.append_assoc, List.take_append_of_le_length, List.take_take]
    · congr 3
      omega
    · rw [List.length_take]
      have hLt : k + 1 < others.length := by
        by_contra hGe
        rw [List.drop_eq_nil_of_le (by omega)] at hOwn
        cases hOwn
      omega

theorem head?_filter_eq {p : StoredBlock → Prop} [DecidablePred p] {l : List StoredBlock}
    (hNodup : (a :: l).Nodup) : ((a :: l).filter p).head? = some a ↔ p a := by
  rw [List.filter_cons]
  constructor
  · intro hHead
    split at hHead
    case isTrue h => exact of_decide_eq_true h
    case isFalse =>
      have hMem := List.mem_of_mem_filter (List.mem_of_head? hHead)
      exact absurd hMem (List.nodup_cons.mp hNodup).1
  · intro h
    rw [if_pos (decide_eq_true h)]
    rfl

theorem mem_of_mem_limitCount {own? : Option Bytes} {blocks : List StoredBlock}
    (hb : b ∈ limitCount own? maxNumberOfParents blocks) : b ∈ blocks := by
  rw [limitCount_eq] at hb
  have hb := List.mem_of_mem_take hb
  rw [promoteOwn] at hb
  split at hb
  · split at hb
    · exact hb
    · split at hb
      · rcases List.mem_append.mp hb with hb | hb
        · exact List.mem_of_getElem? (Option.mem_toList.mp hb)
        · exact List.mem_of_mem_eraseIdx hb
      · exact hb
  · exact hb

theorem staysFirst_iff {conf : CasperShardConf} {own? : Option Bytes}
    (hNodup : ((h :: others).map (·.blockHash)).Nodup)
    (hHeld : ∀ b ∈ h :: others, ∃ m, dag.lookup b.blockHash = some m)
    (hCap : 1 ≤ capOf conf.maxNumberOfParents (h :: others)) :
    Returns (limitDepth dag conf.maxParentDepth (limitCount own? conf.maxNumberOfParents (h :: others)))
      fun parents => parents.head? = some h ↔ StaysFirst dag conf own? h others := by
  obtain ⟨k, hk⟩ := Nat.exists_eq_add_of_le' hCap
  rw [limitDepth_eq fun b hb => hHeld b (mem_of_mem_limitCount hb)]
  refine ⟨_, rfl, ?_⟩
  rw [StaysFirst, hk, Nat.add_sub_cancel]
  dsimp only
  by_cases hCut : ∃ o ∈ others.drop k, own? = some o.blockHash
  · obtain ⟨o, ho, rfl⟩ := hCut
    have hOthers : o ∈ others := List.mem_of_mem_drop ho
    have hNe : o ≠ h := by
      rintro rfl
      exact (List.nodup_cons.mp (hNodup.of_map _)).1 hOthers
    have hOnly : ∀ o' ∈ others.drop k, some o.blockHash = some o'.blockHash → o' = o := fun o' ho' hEq =>
      eq_of_blockHash_eq hNodup (List.mem_cons_of_mem _ (List.mem_of_mem_drop ho')) (List.mem_cons_of_mem _ hOthers)
        (Option.some.inj hEq).symm
    rw [limitCount_cut hNodup hk ho, or_iff_right fun hFirst => hFirst.1 o ho rfl]
    cases k with
    | zero =>
      refine iff_of_false ?_ ?_
      · rw [if_neg fun hLimited => Nat.lt_irrefl 1 hLimited.2]
        exact fun hHead => hNe (Option.some.inj hHead)
      · rintro ⟨o', -, -, hTwo, -⟩
        omega
    | succ k =>
      have hTake : (o :: h :: others.take k).take (k + 1 + 1) = o :: h :: others.take k := by
        rw [List.take_succ_cons, List.take_succ_cons, List.take_take, Nat.min_self]
      rw [Nat.add_sub_cancel, hTake]
      split
      case isFalse hUnlimited =>
        refine iff_of_false (fun hHead => hNe (Option.some.inj hHead)) ?_
        rintro ⟨o', -, -, -, hDepth, -⟩
        exact hUnlimited ⟨hDepth, by simp⟩
      case isTrue hLimited =>
        rw [List.filter_cons]
        split
        case isTrue hOwn =>
          refine iff_of_false (fun hHead => hNe (Option.some.inj hHead)) ?_
          rintro ⟨o', ho', hEq, -, -, -, hDeep⟩
          obtain rfl := hOnly o' ho' hEq
          exact hDeep (of_decide_eq_true hOwn)
        case isFalse hOwn =>
          have hRest : (h :: others.take k).Nodup :=
            (hNodup.of_map _).sublist (List.Sublist.cons_cons h (List.take_sublist k others))
          rw [head?_filter_eq hRest]
          constructor
          · intro hWithin
            exact ⟨o, ho, rfl, by omega, hLimited.1, hWithin, fun hDeep => hOwn (decide_eq_true hDeep)⟩
          · rintro ⟨o', ho', hEq, -, -, hWithin, -⟩
            obtain rfl := hOnly o' ho' hEq
            exact hWithin
  · have hKept : ∀ o ∈ others.drop k, own? ≠ some o.blockHash := fun o ho hEq => hCut ⟨o, ho, hEq⟩
    have hCount : limitCount own? conf.maxNumberOfParents (h :: others) = h :: others.take k := by
      have hPromote : promoteOwn own? (k + 1) (h :: others) = h :: others := promoteOwn_kept hKept
      rw [limitCount_eq, hk, hPromote, List.take_succ_cons]
    rw [hCount, or_iff_left (fun ⟨o, ho, hEq, _⟩ => hCut ⟨o, ho, hEq⟩), and_iff_right hKept]
    split
    case isTrue hLimited =>
      have hRest : (h :: others.take k).Nodup :=
        (hNodup.of_map _).sublist (List.Sublist.cons_cons h (List.take_sublist k others))
      have hSome : others.take k ≠ [] := by
        intro hNil
        rw [hNil] at hLimited
        exact Nat.lt_irrefl 1 hLimited.2
      rw [head?_filter_eq hRest, or_iff_right hSome, or_iff_right hLimited.1]
    case isFalse hUnlimited =>
      refine iff_of_true rfl ?_
      by_cases hDepth : conf.maxParentDepth = unlimitedDepth
      · exact .inr (.inl hDepth)
      · refine .inl (List.length_eq_zero_iff.mp ?_)
        by_contra hLength
        exact hUnlimited ⟨hDepth, by rw [List.length_cons]; omega⟩

theorem mem_of_limitDepth {depth : Int} {blocks parents : List StoredBlock}
    (hHeld : ∀ b ∈ blocks, ∃ m, dag.lookup b.blockHash = some m) (h : limitDepth dag depth blocks = .ok parents)
    (hb : b ∈ parents) : b ∈ blocks := by
  rw [limitDepth_eq hHeld] at h
  rw [← Except.ok.inj h] at hb
  split at hb
  · exact List.mem_of_mem_filter hb
  · exact hb

theorem pruneDagCoveredParents_cases (hNe : others ≠ []) :
    Collapses dag (h :: others) h ∧ pruneDagCoveredParents dag (h :: others) = [h] ∨
    (∃ c ∈ others, Collapses dag (h :: others) c ∧ pruneDagCoveredParents dag (h :: others) = [c]) ∧
      ¬ Collapses dag (h :: others) h ∨
    (∀ c ∈ h :: others, ¬ Collapses dag (h :: others) c) ∧
      pruneDagCoveredParents dag (h :: others) = h :: others := by
  have hLength : ¬ (h :: others).length ≤ 1 := by
    have hPos := List.length_pos_iff.mpr hNe
    rw [List.length_cons]
    omega
  rw [pruneDagCoveredParents, if_neg hLength, List.find?_cons]
  cases hFirst : h.deploys.isEmpty && (h :: others).all (covers dag h) with
  | true => exact .inl ⟨collapses_iff.mp hFirst, rfl⟩
  | false =>
    have hFirst : ¬ Collapses dag (h :: others) h := by
      rw [← collapses_iff, hFirst]
      exact Bool.false_ne_true
    cases hFind : others.find? fun c => c.deploys.isEmpty && (h :: others).all (covers dag c) with
    | some c =>
      have hCollapses := List.find?_some hFind
      exact .inr (.inl ⟨⟨c, List.mem_of_find?_eq_some hFind, collapses_iff.mp hCollapses, rfl⟩, hFirst⟩)
    | none =>
      refine .inr (.inr ⟨List.forall_mem_cons.mpr ⟨hFirst, fun c hc => ?_⟩, rfl⟩)
      have hNot := List.find?_eq_none.mp hFind c hc
      rwa [collapses_iff] at hNot

section Candidates

variable {conf : CasperShardConf} {own? : Option Bytes} {blocks : List StoredBlock}
  (hNodup : (blocks.map (·.blockHash)).Nodup) (hHeld : ∀ b ∈ blocks, ∃ m, dag.lookup b.blockHash = some m)
  (hCap : 1 ≤ conf.maxNumberOfParents ∧ conf.maxNumberOfParents < 2 ^ 31 ∨
    conf.maxNumberOfParents = unlimitedParents)

include hCap in
theorem limits_singleton (c : StoredBlock) :
    limitDepth dag conf.maxParentDepth (limitCount own? conf.maxNumberOfParents [c]) = .ok [c] := by
  have hCapPos : 1 ≤ capOf conf.maxNumberOfParents [c] := one_le_capOf hCap (List.cons_ne_nil _ _)
  have hCount : limitCount own? conf.maxNumberOfParents [c] = [c] := by
    rw [limitCount_eq, promoteOwn, if_neg (by rw [List.length_singleton]; omega), List.take_of_length_le hCapPos]
  rw [hCount, limitDepth, if_neg fun hLimited => Nat.lt_irrefl 1 hLimited.2]

include hHeld in
theorem limits_returns {kept : List StoredBlock} (hKept : ∀ b ∈ kept, b ∈ blocks) :
    Returns (limitDepth dag conf.maxParentDepth (limitCount own? conf.maxNumberOfParents kept))
      fun parents => ∀ b ∈ parents, b ∈ blocks := by
  have hHeld' : ∀ b ∈ limitCount own? conf.maxNumberOfParents kept, ∃ m, dag.lookup b.blockHash = some m :=
    fun b hb => hHeld b (hKept b (mem_of_mem_limitCount hb))
  refine ⟨_, limitDepth_eq hHeld', fun b hb => hKept b ?_⟩
  exact mem_of_mem_limitCount (mem_of_limitDepth hHeld' (limitDepth_eq hHeld') hb)

include hHeld hCap in
theorem pruneAndLimit_returns {h : StoredBlock} {others : List StoredBlock}
    (hSame : ∀ b, b ∈ h :: others ↔ b ∈ blocks) (hNodup' : ((h :: others).map (·.blockHash)).Nodup) :
    Returns (limitDepth dag conf.maxParentDepth
      (limitCount own? conf.maxNumberOfParents (pruneDagCoveredParents dag (h :: others)))) fun parents =>
      (∀ b ∈ parents, b ∈ blocks) ∧ (parents.head? = some h ↔ others = [] ∨ Collapses dag blocks h ∨
        (∀ candidate ∈ blocks, ¬ Collapses dag blocks candidate) ∧ StaysFirst dag conf own? h others) := by
  have hCollapses : Collapses dag (h :: others) = Collapses dag blocks := by
    funext c
    simp only [Collapses, hSame]
  have hAlone : ∀ c ∈ h :: others, ∀ b ∈ [c], b ∈ blocks := by
    intro c hc b hb
    rw [List.mem_singleton.mp hb]
    exact (hSame c).mp hc
  have hHead : h ∉ others := (List.nodup_cons.mp (hNodup'.of_map _)).1
  rcases eq_or_ne others [] with rfl | hSeveral
  · exact ⟨[h], limits_singleton hCap h, hAlone h List.mem_cons_self, iff_of_true rfl (.inl rfl)⟩
  · rw [or_iff_right hSeveral]
    rcases @pruneDagCoveredParents_cases dag h others hSeveral with
      ⟨hFirst, hEq⟩ | ⟨⟨c, hc, hOther, hEq⟩, hNot⟩ | ⟨hNone, hEq⟩
    · rw [hCollapses] at hFirst
      rw [hEq]
      exact ⟨[h], limits_singleton hCap h, hAlone h List.mem_cons_self, iff_of_true rfl (.inl hFirst)⟩
    · rw [hCollapses] at hOther hNot
      rw [hEq]
      refine ⟨[c], limits_singleton hCap c, hAlone c (List.mem_cons_of_mem h hc), iff_of_false ?_ ?_⟩
      · intro hEq
        exact hHead (Option.some.inj hEq ▸ hc)
      · rintro (hFirst | ⟨hNone, -⟩)
        · exact hNot hFirst
        · exact hNone c ((hSame c).mp (List.mem_cons_of_mem h hc)) hOther
    · simp only [hCollapses, hSame] at hNone
      rw [hEq, or_iff_right (hNone h ((hSame h).mp List.mem_cons_self)), and_iff_right hNone]
      have hHeld' : ∀ b ∈ h :: others, ∃ m, dag.lookup b.blockHash = some m := fun b hb => hHeld b ((hSame b).mp hb)
      refine (staysFirst_iff hNodup' hHeld' (one_le_capOf hCap (List.cons_ne_nil h others))).elim
        fun parents ⟨hReturn, hFirst⟩ => ⟨parents, hReturn, fun b hb => ?_, hFirst⟩
      have hLimited := mem_of_limitDepth (fun b hb => hHeld' b (mem_of_mem_limitCount hb)) hReturn hb
      exact (hSame b).mp (mem_of_mem_limitCount hLimited)

include hNodup hHeld hCap in
theorem orderParents_returns {approved : StoredBlock} {head : Bytes} (hNe : blocks ≠ []) :
    Returns (orderParents dag conf approved own? (some head) blocks) fun parents =>
      (∀ b ∈ parents, b ∈ blocks) ∧
      ((∃ main, parents.head? = some main ∧ main.blockHash = head) ↔ BuildsOnHead dag conf own? head blocks) := by
  have hSortNe : (blocks.insertionSort fun a b => sortsBefore (some head) a b).isEmpty = false := by
    rw [List.isEmpty_eq_false_iff, Ne, ← List.length_eq_zero_iff, List.length_insertionSort, List.length_eq_zero_iff]
    exact hNe
  rw [orderParents, hSortNe, if_neg Bool.false_ne_true]
  by_cases hMem : ∃ h ∈ blocks, h.blockHash = head
  · obtain ⟨h, hBlock, rfl⟩ := hMem
    have hSort := insertionSort_sortsBefore hNodup hBlock
    have hSame : ∀ b, b ∈ h :: othersByHash h.blockHash blocks ↔ b ∈ blocks := fun b => by
      rw [← hSort, List.mem_insertionSort]
    have hNodup' : ((h :: othersByHash h.blockHash blocks).map (·.blockHash)).Nodup := by
      rw [← hSort]
      exact ((List.perm_insertionSort _ blocks).map _).nodup_iff.mpr hNodup
    have hAlone : othersByHash h.blockHash blocks = [] ↔ blocks = [h] := by
      have hPerm : (h :: othersByHash h.blockHash blocks).Perm blocks := hSort ▸ List.perm_insertionSort _ blocks
      constructor
      · intro hNil
        rw [hNil] at hPerm
        exact (List.perm_singleton.mp hPerm.symm)
      · intro hOne
        have hLength := hPerm.length_eq
        rw [List.length_cons, congrArg List.length hOne, List.length_singleton] at hLength
        exact List.length_eq_zero_iff.mp (by omega)
    rw [hSort]
    refine (pruneAndLimit_returns hHeld hCap hSame hNodup').imp fun parents ⟨hSub, hFirst⟩ => ⟨hSub, ?_⟩
    rw [hAlone] at hFirst
    have hOnly : ∀ {c}, c ∈ blocks → c.blockHash = h.blockHash → c = h := fun hc =>
      eq_of_blockHash_eq hNodup hc hBlock
    constructor
    · rintro ⟨main, hMain, hHash⟩
      obtain rfl := hOnly (hSub main (List.mem_of_head? hMain)) hHash
      exact ⟨main, hBlock, rfl, hFirst.mp hMain⟩
    · rintro ⟨h', hBlock', hHash, hCases⟩
      obtain rfl := hOnly hBlock' hHash
      exact ⟨h', hFirst.mpr hCases, rfl⟩
  · have hSub : ∀ b ∈ pruneDagCoveredParents dag (blocks.insertionSort fun a b => sortsBefore (some head) a b),
        b ∈ blocks := fun b hb => (List.mem_insertionSort _).mp (mem_of_mem_pruneDagCoveredParents hb)
    refine (limits_returns hHeld hSub).imp fun parents hParents => ⟨hParents, iff_of_false ?_ ?_⟩
    · rintro ⟨main, hMain, hHash⟩
      exact hMem ⟨main, hParents main (List.mem_of_head? hMain), hHash⟩
    · rintro ⟨h, hBlock, hHash, -⟩
      exact hMem ⟨h, hBlock, hHash⟩

end Candidates

theorem validLatest_validLatestMessages (latestMessages : LatestMessages) :
    ValidLatest dag (dag.validLatestMessages latestMessages) := by
  intro message hMessage
  obtain ⟨entry, hEntry, rfl⟩ := List.mem_map.mp hMessage
  obtain ⟨-, hKept⟩ := List.mem_filter.mp hEntry
  rw [Bool.and_eq_true, ownTestimony] at hKept
  obtain ⟨hValid, hOwn⟩ := hKept
  cases hLookup : dag.lookup entry.2 with
  | none =>
    rw [hLookup] at hOwn
    cases hOwn
  | some m =>
    refine ⟨m, rfl, ?_⟩
    rw [hLookup] at hValid
    simpa using hValid

variable {latestMessages : LatestMessages}

theorem mem_latestHashes {hash : Bytes} :
    hash ∈ latestHashes latestMessages ↔ ∃ message ∈ messagesOf latestMessages, message.2 = hash := by
  simp [latestHashes, messagesOf]

theorem map_blockHash_of_parentBlocks {blockStore : KeyValueBlockStore}
    {blocks : List StoredBlock} (h : parentBlocks blockStore latestMessages = .ok blocks) :
    blocks.map (·.blockHash) = (latestHashes latestMessages).dedup := by
  rw [parentBlocks] at h
  generalize (latestHashes latestMessages).dedup = hashes at h
  induction hashes generalizing blocks with
  | nil =>
    obtain rfl := Except.ok.inj h
    rfl
  | cons hash hashes ih =>
    rw [List.mapM_cons] at h
    obtain ⟨block, hBlock, h⟩ := exists_of_bind_ok h
    obtain ⟨rest, hRest, h⟩ := exists_of_bind_ok h
    obtain rfl := Except.ok.inj h
    rw [List.map_cons, ih hRest]
    congr 1
    split at hBlock
    case h_1 found hGet =>
      obtain rfl := Except.ok.inj hBlock
      exact KeyValueBlockStore.blockHash_of_get hGet
    case h_2 => cases hBlock

theorem head?_of_filterDeepParents {head : Bytes} {rest shallow : List Bytes} {maxParentDepth? : Option Int}
    (h : filterDeepParents dag (head :: rest) maxParentDepth? = .ok shallow) : shallow.head? = some head := by
  cases maxParentDepth? with
  | none =>
    obtain rfl := Except.ok.inj h
    rfl
  | some depth =>
    obtain ⟨main, -, h⟩ := exists_of_bind_ok h
    obtain ⟨secondary, -, h⟩ := exists_of_bind_ok h
    obtain rfl := Except.ok.inj h
    rfl

theorem stages_of_tipsWithLatestMessages {floor : BlockMetadata} {cap : Int}
    {depth? : Option Int} {choice : ForkChoice}
    (h : tipsWithLatestMessages dag floor latestMessages cap depth? = .ok choice) (hCap : cap ≠ 0) :
    calculateLca dag floor (heldLatestMessages dag latestMessages) = .ok choice.lca ∧
      buildScoresMap dag (heldLatestMessages dag latestMessages) choice.lca = .ok choice.scores ∧
      choice.tips.head? = some (descend dag choice.scores dag.records.length choice.lca) := by
  obtain ⟨lca, hLca, h⟩ := exists_of_bind_ok h
  obtain ⟨scores, hScores, h⟩ := exists_of_bind_ok h
  obtain ⟨shallow, hShallow, h⟩ := exists_of_bind_ok h
  obtain rfl := Except.ok.inj h
  refine ⟨hLca, hScores, ?_⟩
  dsimp only
  have hHead := head?_of_filterDeepParents hShallow
  split
  · exact hHead
  · rw [List.head?_take, if_neg (by omega)]
    exact hHead

theorem descend_empty (fuel : Nat) (lca : Bytes) : descend dag ∅ fuel lca = lca := by
  have hNone : scoredMainChildren dag lca ∅ = [] := by
    refine List.eq_nil_iff_forall_not_mem.mpr fun child hChild => ?_
    exact AList.notMem_empty _ (mem_scoredMainChildren.mp hChild).1
  cases fuel with
  | zero => rfl
  | succ fuel =>
    rw [descend, hNone]
    rfl

theorem orderParents_nil {conf : CasperShardConf} {approved : StoredBlock} {own? head : Option Bytes}
    (hCap : 1 ≤ conf.maxNumberOfParents ∧ conf.maxNumberOfParents < 2 ^ 31 ∨
      conf.maxNumberOfParents = unlimitedParents) :
    orderParents dag conf approved own? head [] = .ok [approved] := by
  rw [orderParents]
  change limitDepth dag conf.maxParentDepth (limitCount own? conf.maxNumberOfParents [approved]) = _
  exact limits_singleton hCap approved

theorem forkChoiceFloor_nil (floorOfBlock : Bytes → Option Floor) (num : Int) (approved : BlockMetadata) :
    forkChoiceFloor dag floorOfBlock num [] approved = .ok approved := by
  rw [forkChoiceFloor]
  split <;> rfl

end ParentSelection

open ParentSelection

/-- The first parent of a proposal has the head of the fork choice on its spine exactly when there are no candidates,
or the head is one of them and keeps its place. -/
theorem selectParents_onSpine_iff {conf : CasperShardConf} {blockStore : KeyValueBlockStore} {approved : StoredBlock}
    {approvedMetadata : BlockMetadata} {floorOfBlock : Bytes → Option Floor} {num : Int}
    {validatorId? : Option Bytes} {latestMessages : LatestMessages} {selection : Selection}
    (hSelect : selectParents dag conf blockStore approved approvedMetadata floorOfBlock num validatorId?
      latestMessages = .ok selection) (hApproved : approvedMetadata.blockHash = approved.blockHash)
    (hCap : 1 ≤ conf.maxNumberOfParents ∧ conf.maxNumberOfParents < 2 ^ 31 ∨
      conf.maxNumberOfParents = ParentSelection.unlimitedParents) :
    ∃ head blocks, selection.tips.head? = some head ∧
      parentBlocks blockStore (dag.validLatestMessages latestMessages) = .ok blocks ∧
      ((∃ main, selection.parents.head? = some main ∧ dag.OnSpine head main.blockHash) ↔
        blocks = [] ∨ BuildsOnHead dag conf (validatorId?.bind (dag.validLatestMessages latestMessages).lookup)
          head blocks) := by
  obtain ⟨blocks, hBlocks, h⟩ := exists_of_bind_ok hSelect
  obtain ⟨floor, hFloor, h⟩ := exists_of_bind_ok h
  obtain ⟨choice, hChoice, h⟩ := exists_of_bind_ok h
  obtain ⟨parents, hParents, h⟩ := exists_of_bind_ok h
  obtain rfl := Except.ok.inj h
  have hCapNe : conf.maxNumberOfParents ≠ 0 := by
    rcases hCap with hCap | hCap
    · omega
    · rw [hCap]
      decide
  obtain ⟨hLca, hScores, hHead⟩ := stages_of_tipsWithLatestMessages hChoice hCapNe
  rw [(validLatest_validLatestMessages latestMessages).heldLatestMessages] at hLca hScores
  refine ⟨_, blocks, hHead, hBlocks, ?_⟩
  have hHashes := map_blockHash_of_parentBlocks hBlocks
  have hMessages : ∀ message ∈ messagesOf (dag.validLatestMessages latestMessages),
      ∃ m, dag.lookup message.2 = some m := fun message hMem =>
    (validLatest_validLatestMessages latestMessages message hMem).imp fun m hm => hm.1
  have hCandidates : ∀ b ∈ blocks, ∃ message ∈ messagesOf (dag.validLatestMessages latestMessages),
      message.2 = b.blockHash := by
    intro b hb
    have hMem : b.blockHash ∈ blocks.map (·.blockHash) := List.mem_map.mpr ⟨b, hb, rfl⟩
    rw [hHashes, List.mem_dedup] at hMem
    exact mem_latestHashes.mp hMem
  rcases eq_or_ne blocks [] with rfl | hNe
  · have hNone : latestHashes (dag.validLatestMessages latestMessages) = [] := by
      rw [← List.dedup_eq_nil, ← hHashes, List.map_nil]
    have hNoMessages : messagesOf (dag.validLatestMessages latestMessages) = [] :=
      List.map_eq_nil_iff.mpr (List.map_eq_nil_iff.mp hNone)
    rw [hNone, forkChoiceFloor_nil] at hFloor
    obtain rfl := Except.ok.inj hFloor
    rw [hNoMessages] at hLca hScores
    rw [orderParents_nil hCap] at hParents
    obtain rfl := Except.ok.inj hParents
    refine iff_of_true ⟨approved, rfl, ?_⟩ (.inl rfl)
    rw [← Except.ok.inj hScores, ← Except.ok.inj hLca, descend_empty, hApproved]
    exact .refl _
  · rw [or_iff_right hNe]
    have hNodup : (blocks.map (·.blockHash)).Nodup := hHashes ▸ List.nodup_dedup _
    have hHeld : ∀ b ∈ blocks, ∃ m, dag.lookup b.blockHash = some m := by
      intro b hb
      obtain ⟨message, hMem, hEq⟩ := hCandidates b hb
      exact hEq ▸ hMessages message hMem
    rw [hHead] at hParents
    obtain ⟨parents', hReturn, hSub, hFirst⟩ := orderParents_returns hNodup hHeld hCap hNe
    obtain rfl := Except.ok.inj (hReturn.symm.trans hParents)
    rw [← hFirst]
    dsimp only
    constructor
    · rintro ⟨main, hMain, hOn⟩
      obtain ⟨message, hMem, hEq⟩ := hCandidates main (hSub main (List.mem_of_head? hMain))
      rw [← hEq] at hOn
      exact ⟨main, hMain, hEq.symm.trans (eq_head_of_onSpine hScores hMessages hMem hOn).symm⟩
    · rintro ⟨main, hMain, hEq⟩
      refine ⟨main, hMain, ?_⟩
      rw [hEq]
      exact .refl _

def rivalDag : KeyValueDagRepresentation :=
  .ofRecords [forkBlock [0] [] 0, { forkBlock [1] [[0]] 1 with sender := [7] },
      { forkBlock [2] [[0]] 1 with sender := [8] }] (by decide) (by decide) (by decide)

def rivalBlock (hash : Bytes) : StoredBlock := ⟨hash, [⟨hash, false⟩], []⟩

def rivalStore : KeyValueBlockStore where
  blocks := (∅ : AList fun _ : Bytes => StoredBlock).insert [2] (rivalBlock [2]) |>.insert [1] (rivalBlock [1])
  hash_eq hash block h := by
    rcases eq_or_ne hash [1] with rfl | hFirst
    · rw [AList.lookup_insert] at h
      exact Option.some.inj h ▸ rfl
    · rw [AList.lookup_insert_ne hFirst] at h
      rcases eq_or_ne hash [2] with rfl | hSecond
      · rw [AList.lookup_insert] at h
        exact Option.some.inj h ▸ rfl
      · rw [AList.lookup_insert_ne hSecond] at h
        cases h

def rivalLatest : LatestMessages := (∅ : LatestMessages).insert [8] [2] |>.insert [7] [1]

def rivalSelection (cap : Int) : Except KvStoreError Selection :=
  selectParents rivalDag ⟨cap, 10⟩ rivalStore (rivalBlock [0]) (forkBlock [0] [] 0) (fun _ => none) 1 (some [8])
    rivalLatest

/-- With room for both, the proposal builds on the head. -/
theorem rivalSelection_builds_on_head :
    ∃ selection main, rivalSelection 2 = .ok selection ∧ selection.tips.head? = some [1] ∧
      selection.parents.head? = some main ∧ rivalDag.OnSpine [1] main.blockHash := by
  obtain ⟨selection, hSelect⟩ : ∃ selection, rivalSelection 2 = .ok selection := ⟨_, rfl⟩
  have hHead : selection.tips.head? = some [1] := by
    obtain rfl := Except.ok.inj hSelect
    rfl
  obtain ⟨head, blocks, hTip, hBlocks, hIff⟩ := selectParents_onSpine_iff hSelect rfl (.inl (by decide))
  obtain rfl := Option.some.inj (hTip.symm.trans hHead)
  obtain rfl : [rivalBlock [1], rivalBlock [2]] = blocks := Except.ok.inj hBlocks
  have hNone : ∀ b ∈ [rivalBlock [1], rivalBlock [2]],
      ¬ Collapses rivalDag [rivalBlock [1], rivalBlock [2]] b := by
    intro b hb hCollapses
    have hDeploys : ∀ b ∈ [rivalBlock [1], rivalBlock [2]], b.deploys ≠ [] := by decide
    exact hDeploys b hb hCollapses.1
  have hStays : StaysFirst rivalDag ⟨2, 10⟩ (some [2]) (rivalBlock [1])
      (othersByHash [1] [rivalBlock [1], rivalBlock [2]]) := .inl ⟨by decide, .inr (.inr (by decide))⟩
  obtain ⟨main, hMain, hOn⟩ := hIff.mpr (.inr ⟨rivalBlock [1], List.mem_cons_self, rfl, .inr (.inr ⟨hNone, hStays⟩)⟩)
  exact ⟨selection, main, hSelect, hHead, hMain, hOn⟩

/-- With room for one, its own block takes the place of the head. -/
theorem rivalSelection_leaves_head :
    ∃ selection main, rivalSelection 1 = .ok selection ∧ selection.tips.head? = some [1] ∧
      selection.parents.head? = some main ∧ ¬ rivalDag.OnSpine [1] main.blockHash := by
  refine ⟨_, rivalBlock [2], rfl, rfl, rfl, fun hOn => ?_⟩
  have hLt := hOn.blockNumber_lt (by decide) (rfl : rivalDag.lookup [1] = some _) (rfl : rivalDag.lookup [2] = some _)
  exact absurd hLt (by decide)

end F1r3Node.Dag
