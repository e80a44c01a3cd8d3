import F1r3Node.Dag.ForkChoiceMajority

/-! # What the fork choice reads of the DAG

When nothing that the fork choice reads is below the floor, the choice is the same on every DAG that agrees from the
floor's height on.
-/

namespace F1r3Node.Dag

open Shared Lib Estimator KeyValueDagRepresentation

variable {dag dag' : KeyValueDagRepresentation} {floor : BlockMetadata} {height : Int}

def AgreeFrom (height : Int) (dag dag' : KeyValueDagRepresentation) : Prop :=
  ∀ hash m, height ≤ m.blockNumber → (dag.lookup hash = some m ↔ dag'.lookup hash = some m)

def HeldFrom (dag : KeyValueDagRepresentation) (height : Int) (hash : Bytes) : Prop :=
  ∃ m, dag.lookup hash = some m ∧ height ≤ m.blockNumber

variable {hash : Bytes}

theorem AgreeFrom.lookup_eq (hAgree : AgreeFrom height dag dag') (h : HeldFrom dag height hash) :
    dag'.lookup hash = dag.lookup hash := by
  obtain ⟨m, hm, hHeight⟩ := h
  rw [hm]
  exact (hAgree hash m hHeight).mp hm

namespace KeyValueDagRepresentation

def blocksFrom (dag : KeyValueDagRepresentation) (height : Int) : AList fun _ : Bytes => BlockMetadata where
  entries := dag.blocks.entries.filter fun entry => height ≤ entry.2.blockNumber
  nodupKeys := dag.blocks.nodupKeys.sublist List.filter_sublist

theorem lookup_blocksFrom {hash : Bytes} {m : BlockMetadata} :
    (dag.blocksFrom height).lookup hash = some m ↔ dag.blocks.lookup hash = some m ∧ height ≤ m.blockNumber := by
  rw [← Option.mem_def, ← Option.mem_def, AList.mem_lookup_iff, AList.mem_lookup_iff, blocksFrom, List.mem_filter,
    decide_eq_true_iff]

def truncate (dag : KeyValueDagRepresentation) (height : Int) : KeyValueDagRepresentation where
  blocks := dag.blocksFrom height
  hash_eq hash m h := dag.hash_eq hash m (lookup_blocksFrom.mp h).1
  number_nonneg hash m h := dag.number_nonneg hash m (lookup_blocksFrom.mp h).1
  parents_lower hash m h parent hParent p hp :=
    dag.parents_lower hash m (lookup_blocksFrom.mp h).1 parent hParent p (lookup_blocksFrom.mp hp).1

theorem lookup_truncate {hash : Bytes} {m : BlockMetadata} :
    (dag.truncate height).lookup hash = some m ↔ dag.lookup hash = some m ∧ height ≤ m.blockNumber :=
  lookup_blocksFrom

theorem agreeFrom_truncate : AgreeFrom height dag (dag.truncate height) := by
  intro hash m hHeight
  rw [lookup_truncate, and_iff_left hHeight]

end KeyValueDagRepresentation

def Expands (dag : KeyValueDagRepresentation) (floor : BlockMetadata) (current next : List BlockMetadata) : Prop :=
  ∃ head second rest parents, current = head :: second :: rest ∧ floor.blockNumber < head.blockNumber ∧
    head.parents.mapM dag.lookupUnsafe = .ok parents ∧ next = insertAllDescending parents (second :: rest)

def ExpandsAbove (dag : KeyValueDagRepresentation) (floor : BlockMetadata) (height : Int)
    (blocks : List BlockMetadata) : Prop :=
  ∀ head second rest, Relation.ReflTransGen (Expands dag floor) blocks (head :: second :: rest) →
    floor.blockNumber < head.blockNumber → ∀ parent ∈ head.parents, ∀ p, dag.lookup parent = some p →
      height ≤ p.blockNumber

theorem ExpandsAbove.step {current next : List BlockMetadata} (h : ExpandsAbove dag floor height current)
    (hStep : Expands dag floor current next) : ExpandsAbove dag floor height next :=
  fun head second rest hReach => h head second rest (.head hStep hReach)

theorem lucaLoop_singleton (floor block : BlockMetadata) (fuel : Nat) : dag.lucaLoop floor fuel [block] = .ok block := by
  cases fuel <;> rfl

variable {fuel fuel' : Nat} {blocks : List BlockMetadata}

theorem lucaLoop_transfer (hAgree : AgreeFrom height dag dag')
    {luca : BlockMetadata} (hRun : dag.lucaLoop floor fuel blocks = .ok luca)
    (hAbove : ∀ m ∈ blocks, dag.lookup m.blockHash = some m ∧ height ≤ m.blockNumber)
    (hSorted : blocks.Pairwise fun a b => precedes a b = true) (hReads : ExpandsAbove dag floor height blocks)
    (hFuel : ∀ head ∈ blocks.head?, dag'.countAfter head ≤ fuel') :
    dag'.lucaLoop floor fuel' blocks = .ok luca ∧
      (luca = floor ∨ dag.lookup luca.blockHash = some luca ∧ height ≤ luca.blockNumber) := by
  induction fuel generalizing blocks fuel' with
  | zero =>
    match blocks with
    | [] => cases hRun
    | [block] =>
      obtain rfl := Except.ok.inj hRun
      exact ⟨lucaLoop_singleton _ _ _, .inr (hAbove block List.mem_cons_self)⟩
    | _ :: _ :: _ => cases hRun
  | succ fuel ih =>
    match blocks with
    | [] => cases hRun
    | [block] =>
      obtain rfl := Except.ok.inj hRun
      exact ⟨lucaLoop_singleton _ _ _, .inr (hAbove block List.mem_cons_self)⟩
    | head :: second :: rest =>
      obtain ⟨hFirst, hRest⟩ := List.pairwise_cons.mp hSorted
      obtain ⟨hHead, hTail⟩ := List.forall_mem_cons.mp hAbove
      have hRecord : ∀ {m : BlockMetadata}, dag.lookup m.blockHash = some m → height ≤ m.blockNumber →
          m ∈ dag'.records := fun hm hHeight => mem_records.mpr ((hAgree _ _ hHeight).mp hm)
      have hLt : ∀ {m}, m ∈ dag'.records → precedes head m = true → dag'.countAfter m < dag'.countAfter head :=
        fun hm hBefore => countAfter_lt hm hBefore
      have hSecond := hTail second List.mem_cons_self
      have hFuelLt := hLt (hRecord hSecond.1 hSecond.2) (hFirst second List.mem_cons_self)
      have hFuelHead := hFuel head rfl
      cases fuel' with
      | zero => omega
      | succ fuel' =>
        rw [lucaLoop_succ] at hRun ⊢
        split at hRun
        case isTrue hLow =>
          rw [if_pos hLow]
          obtain rfl := Except.ok.inj hRun
          exact ⟨rfl, .inl rfl⟩
        case isFalse hHigh =>
          rw [if_neg hHigh]
          obtain ⟨parents, hParents, hRun⟩ := exists_of_bind_ok hRun
          have hStep : Expands dag floor (head :: second :: rest) (insertAllDescending parents (second :: rest)) :=
            ⟨head, second, rest, parents, rfl, Int.not_le.mp hHigh, hParents, rfl⟩
          have hParentsAbove : ∀ p ∈ parents, dag.lookup p.blockHash = some p ∧ height ≤ p.blockNumber ∧
              precedes head p = true := by
            intro p hp
            obtain ⟨parent, hParent, hLookup⟩ := (mem_of_mapM_ok hParents p).mp hp
            have hLookup := lookupUnsafe_eq_ok.mp hLookup
            refine ⟨blockHash_of_lookup hLookup ▸ hLookup, ?_, ?_⟩
            · exact hReads head second rest .refl (Int.not_le.mp hHigh) parent hParent p hLookup
            · exact precedes_iff.mpr (.inl (dag.parents_lower _ head hHead.1 parent hParent p hLookup))
          have hParents' : head.parents.mapM dag'.lookupUnsafe = .ok parents := by
            rw [← hParents]
            refine (mapM_congr fun parent hParent => ?_).symm
            obtain ⟨p, hp, hLookup⟩ := exists_of_mapM_ok hParents hParent
            have hHeight := (hParentsAbove p hp).2.1
            rw [hLookup, eq_comm, lookupUnsafe_eq_ok, ← hAgree _ _ hHeight]
            exact lookupUnsafe_eq_ok.mp hLookup
          have hNext : ∀ m ∈ insertAllDescending parents (second :: rest),
              (dag.lookup m.blockHash = some m ∧ height ≤ m.blockNumber) ∧ precedes head m = true := by
            intro m hm
            rcases mem_of_mem_insertAllDescending hm with hm | hm
            · exact ⟨⟨(hParentsAbove m hm).1, (hParentsAbove m hm).2.1⟩, (hParentsAbove m hm).2.2⟩
            · exact ⟨hTail m hm, hFirst m hm⟩
          rw [hParents']
          refine ih hRun (fun m hm => (hNext m hm).1) (pairwise_insertAllDescending parents hRest)
            (hReads.step hStep) fun head' hHead' => ?_
          obtain ⟨hHeld, hBefore⟩ := hNext head' (List.mem_of_head? hHead')
          have hFuelNext := hLt (hRecord hHeld.1 hHeld.2) hBefore
          omega

/-- The blocks that the walk from a message credits, and the main parent of each, are from the height on. -/
def CreditsAbove (dag : KeyValueDagRepresentation) (height lcaBlockNum : Int) (message : Bytes) : Prop :=
  ∀ hash m, Credited dag lcaBlockNum message hash → dag.lookup hash = some m → height ≤ m.blockNumber ∧
    ∀ parent p, m.parents.head? = some parent → dag.lookup parent = some p → height ≤ p.blockNumber

variable {m : BlockMetadata}

theorem weightFromValidatorByDag_transfer (hAgree : AgreeFrom height dag dag') {validator : Bytes} {weight : Int}
    (hm : dag.lookup hash = some m) (hHeight : height ≤ m.blockNumber)
    (hParent : ∀ parent p, m.parents.head? = some parent → dag.lookup parent = some p → height ≤ p.blockNumber)
    (h : dag.weightFromValidatorByDag hash validator = .ok weight) :
    dag'.weightFromValidatorByDag hash validator = .ok weight := by
  rw [← h, weightFromValidatorByDag, weightFromValidatorByDag, hm, (hAgree _ _ hHeight).mp hm]
  dsimp only
  cases hHead : m.parents.head? with
  | none => rfl
  | some parent =>
    obtain ⟨p, hp⟩ := exists_lookup_of_weight h hm hHead
    dsimp only
    rw [hp, (hAgree _ _ (hParent parent p hHead hp)).mp hp]

theorem addWeightLoop_transfer (hAgree : AgreeFrom height dag dag') {validator : Bytes} {lcaBlockNum : Int}
    {visited : List Bytes} {scores scores' : Scores}
    (hRun : addWeightLoop dag validator lcaBlockNum fuel visited [hash] scores = .ok scores')
    (hm : dag.lookup hash = some m) (hReads : CreditsAbove dag height lcaBlockNum hash)
    (hFuel : dag'.countBelow m.blockNumber < fuel') :
    addWeightLoop dag' validator lcaBlockNum fuel' visited [hash] scores = .ok scores' ∧
      ∀ x ∈ scores', x ∈ scores ∨ HeldFrom dag height x := by
  induction fuel generalizing fuel' visited hash m scores with
  | zero => cases hRun
  | succ fuel ih =>
    obtain ⟨hHeight, hParentHeight⟩ := hReads hash m .refl hm
    cases fuel' with
    | zero => omega
    | succ fuel' =>
      rw [addWeightLoop] at hRun ⊢
      split at hRun
      case isTrue hSeen =>
        rw [if_pos hSeen, addWeightLoop_nil]
        rw [addWeightLoop_nil] at hRun
        obtain rfl := Except.ok.inj hRun
        exact ⟨rfl, fun x hx => .inl hx⟩
      case isFalse hNew =>
        rw [if_neg hNew]
        obtain ⟨weight, hWeight, hRun⟩ := exists_of_bind_ok hRun
        obtain ⟨scores₁, hScores, hRun⟩ := exists_of_bind_ok hRun
        have hMem : ∀ x ∈ scores₁, x ∈ scores ∨ HeldFrom dag height x := by
          intro x hx
          rcases (mem_of_addScore hScores x).mp hx with rfl | hx
          · exact .inr ⟨m, hm, hHeight⟩
          · exact .inl hx
        rw [weightFromValidatorByDag_transfer hAgree hm hHeight hParentHeight hWeight]
        change addScore scores hash weight >>= _ = _ ∧ _
        rw [hScores]
        rw [hashParents, lookupUnsafe, hm] at hRun
        change (hashParents dag' hash lcaBlockNum >>= _) = _ ∧ _
        rw [hashParents, lookupUnsafe, (hAgree _ _ hHeight).mp hm]
        change addWeightLoop dag validator lcaBlockNum fuel (hash :: visited) (List.filter (· ∉ hash :: visited)
          (if m.blockNumber < lcaBlockNum then [] else m.parents.take 1)) scores₁ = _ at hRun
        change addWeightLoop dag' validator lcaBlockNum fuel' (hash :: visited) (List.filter (· ∉ hash :: visited)
          (if m.blockNumber < lcaBlockNum then [] else m.parents.take 1)) scores₁ = _ ∧ _
        -- the walk goes on with the main parent or ends here
        cases hQueue : List.filter (· ∉ hash :: visited)
            (if m.blockNumber < lcaBlockNum then [] else m.parents.take 1) with
        | nil =>
          rw [hQueue, addWeightLoop_nil] at hRun
          obtain rfl := Except.ok.inj hRun
          rw [addWeightLoop_nil]
          exact ⟨rfl, hMem⟩
        | cons parent rest =>
          obtain ⟨hGo, hHead, rfl⟩ := eq_of_filter_eq_cons hQueue
          obtain ⟨p, hp⟩ := exists_lookup_of_weight hWeight hm hHead
          have hStep : CreditStep dag lcaBlockNum hash parent := ⟨m, hm, Int.not_lt.mp hGo, hHead⟩
          have hp' := (hAgree _ _ (hParentHeight parent p hHead hp)).mp hp
          have hLower := dag.parents_lower hash m hm parent (List.mem_of_head? hHead) p hp
          have hCount := countBelow_lt hp' hLower
          rw [hQueue] at hRun
          obtain ⟨hRun', hMem'⟩ := ih hRun hp (fun x mx hx => hReads x mx (.head hStep hx)) (Nat.lt_of_lt_of_le hCount (Nat.le_of_lt_succ hFuel))
          refine ⟨hRun', fun x hx => ?_⟩
          exact (hMem' x hx).elim (hMem x) .inr

variable {messages : List (Bytes × Bytes)} {lca : Bytes}

theorem buildScoresMap_transfer (hAgree : AgreeFrom height dag dag')
    (hLca : dag.lookup lca = some m) (hHeight : height ≤ m.blockNumber)
    (hHeld : ∀ message ∈ messages, ∃ m, dag.lookup message.2 = some m)
    (hReads : ∀ message ∈ messages, CreditsAbove dag height m.blockNumber message.2) {scores : Scores}
    (hRun : buildScoresMap dag messages lca = .ok scores) :
    buildScoresMap dag' messages lca = .ok scores ∧ ∀ x ∈ scores, HeldFrom dag height x := by
  have hLca' := (hAgree _ _ hHeight).mp hLca
  rw [buildScoresMap] at hRun ⊢
  have hGeneral : ∀ {start : Scores}, messages.foldlM (addValidatorWeightDownSupportingChain dag lca) start =
      .ok scores → messages.foldlM (addValidatorWeightDownSupportingChain dag' lca) start = .ok scores ∧
        ∀ x ∈ scores, x ∈ start ∨ HeldFrom dag height x := by
    clear hRun
    induction messages with
    | nil =>
      intro start hRun
      obtain rfl := Except.ok.inj hRun
      exact ⟨rfl, fun x hx => .inl hx⟩
    | cons message messages ih =>
      intro start hRun
      obtain ⟨⟨mm, hmm⟩, hHeld⟩ := List.forall_mem_cons.mp hHeld
      obtain ⟨hFirst, hReads⟩ := List.forall_mem_cons.mp hReads
      rw [List.foldlM_cons] at hRun ⊢
      obtain ⟨scores₁, hWalk, hRun⟩ := exists_of_bind_ok hRun
      rw [addValidatorWeightDownSupportingChain, lookupUnsafe, hLca] at hWalk
      have hFuel : dag'.countBelow mm.blockNumber < dag'.records.length + 1 := Nat.lt_succ_of_le (countBelow_le _)
      obtain ⟨hWalk', hMem⟩ := addWeightLoop_transfer hAgree hWalk hmm hFirst hFuel
      obtain ⟨hRun', hMem'⟩ := ih hHeld hReads hRun
      have hStep : addValidatorWeightDownSupportingChain dag' lca start message = .ok scores₁ := by
        rw [addValidatorWeightDownSupportingChain, lookupUnsafe, hLca']
        exact hWalk'
      rw [hStep]
      refine ⟨hRun', fun x hx => ?_⟩
      exact (hMem' x hx).elim (hMem x) .inr
  obtain ⟨hRun', hMem⟩ := hGeneral hRun
  exact ⟨hRun', fun x hx => (hMem x hx).resolve_left (AList.notMem_empty x)⟩

theorem nodup_scoredMainChildren (block : Bytes) (scores : Scores) :
    (scoredMainChildren dag block scores).Nodup := by
  have hKeys : dag.records.map (·.blockHash) = dag.blocks.entries.map Sigma.fst := by
    rw [records, List.map_map]
    refine List.map_congr_left fun entry hEntry => ?_
    exact dag.hash_eq entry.1 entry.2 (AList.mem_lookup_iff.mpr hEntry)
  have hNodup : (dag.records.map (·.blockHash)).Nodup := by
    rw [hKeys]
    exact dag.blocks.nodupKeys
  exact (hNodup.sublist (List.filter_sublist.map _)).filter _

section Ranking

variable (hAgree : AgreeFrom height dag dag') {scores : Scores} (hScores : ∀ x ∈ scores, HeldFrom dag height x)

include hAgree hScores

theorem scoredMainChildren_perm (block : Bytes) :
    (scoredMainChildren dag block scores).Perm (scoredMainChildren dag' block scores) := by
  refine (List.perm_ext_iff_of_nodup (nodup_scoredMainChildren block scores)
    (nodup_scoredMainChildren block scores)).mpr fun child => ?_
  rw [mem_scoredMainChildren, mem_scoredMainChildren]
  refine and_congr_right fun hChild => ?_
  rw [mainParent, mainParent, hAgree.lookup_eq (hScores child hChild)]

theorem sort_scoredMainChildren_eq (block : Bytes) :
    sortByWithDecreasingOrder (scoredMainChildren dag' block scores) scores =
      sortByWithDecreasingOrder (scoredMainChildren dag block scores) scores := by
  have hPerm : (sortByWithDecreasingOrder (scoredMainChildren dag' block scores) scores).Perm
      (sortByWithDecreasingOrder (scoredMainChildren dag block scores) scores) :=
    (List.perm_insertionSort _ _).trans
      ((scoredMainChildren_perm hAgree hScores block).symm.trans (List.perm_insertionSort _ _).symm)
  refine hPerm.eq_of_pairwise (fun a b _ _ hab hba => ?_)
    (List.pairwise_insertionSort (fun a b => ranksBefore scores a b = true) _)
    (List.pairwise_insertionSort (fun a b => ranksBefore scores a b = true) _)
  rw [ranksBefore_iff] at hab hba
  rcases hab with hab | ⟨hab, hLe⟩
  · omega
  · rcases hba with hba | ⟨-, hLe'⟩
    · omega
    · exact List.le_antisymm hLe hLe'

theorem descend_transfer (fuel : Nat) (head : Bytes) : descend dag' scores fuel head = descend dag scores fuel head := by
  induction fuel generalizing head with
  | zero => rfl
  | succ fuel ih =>
    rw [descend, descend, sort_scoredMainChildren_eq hAgree hScores]
    split
    · rfl
    · exact ih _

end Ranking

theorem descend_of_le {scores : Scores} {head : Bytes}
    (hHead : dag.lookup head = some m) (hFuel : dag.countAbove m.blockNumber ≤ fuel) (hLe : fuel ≤ fuel') :
    descend dag scores fuel' head = descend dag scores fuel head := by
  induction fuel' generalizing fuel head m with
  | zero => rw [Nat.le_zero.mp hLe]
  | succ fuel' ih =>
    rw [descend]
    cases hSort : sortByWithDecreasingOrder (scoredMainChildren dag head scores) scores with
    | nil =>
      cases fuel with
      | zero => rfl
      | succ fuel => rw [descend, hSort]
    | cons child rest =>
      have hParent := mainParent_of_sort hSort
      obtain ⟨c, hc, -⟩ := mainParent_eq_some.mp hParent
      have hLt := countAbove_lt hc (blockNumber_lt_of_mainParent hc hHead hParent)
      cases fuel with
      | zero => omega
      | succ fuel =>
        rw [descend, hSort]
        exact ih hc (by omega) (by omega)

theorem rankForkchoices_transfer (hAgree : AgreeFrom height dag dag') {scores : Scores}
    (hScores : ∀ x ∈ scores, HeldFrom dag height x) (hLca : HeldFrom dag height lca)
    (messages : List (Bytes × Bytes)) :
    rankForkchoices dag' lca messages scores = rankForkchoices dag lca messages scores := by
  obtain ⟨m, hm, hHeight⟩ := hLca
  have hHead : descend dag' scores dag'.records.length lca = descend dag scores dag.records.length lca := by
    have hLe := Nat.le_max_left dag.records.length dag'.records.length
    have hLe' := Nat.le_max_right dag.records.length dag'.records.length
    rw [← descend_of_le ((hAgree _ _ hHeight).mp hm) (countAbove_le _) hLe', descend_transfer hAgree hScores,
      descend_of_le hm (countAbove_le _) hLe]
  have hEmpty : ∀ hash, (scoredMainChildren dag' hash scores).isEmpty = (scoredMainChildren dag hash scores).isEmpty :=
    fun hash => (scoredMainChildren_perm hAgree hScores hash).isEmpty_eq.symm
  rw [rankForkchoices, rankForkchoices, hHead]
  simp only [hEmpty]

theorem latestBlockNumber_transfer (hAgree : AgreeFrom height dag dag')
    (hm : dag.lookup hash = some m) (hHeight : height ≤ m.blockNumber) (hValid : m.invalid = false) :
    dag'.latestBlockNumber = dag.latestBlockNumber := by
  have hMem : ∀ {dag : KeyValueDagRepresentation} {n : Int},
      n ∈ (dag.records.filter (!·.invalid)).map (·.blockNumber) ↔
        ∃ m, dag.lookup m.blockHash = some m ∧ m.invalid = false ∧ m.blockNumber = n := by
    intro dag n
    simp only [List.mem_map, List.mem_filter, mem_records, Bool.not_eq_true', and_assoc]
  have hIn : m.blockNumber ∈ (dag.records.filter (!·.invalid)).map (·.blockNumber) :=
    hMem.mpr ⟨m, blockHash_of_lookup hm ▸ hm, hValid, rfl⟩
  cases hMax : ((dag.records.filter (!·.invalid)).map (·.blockNumber)).max? with
  | none =>
    rw [List.max?_eq_none_iff.mp hMax] at hIn
    cases hIn
  | some top =>
    obtain ⟨hTop, hAll⟩ := List.max?_eq_some_iff.mp hMax
    obtain ⟨mt, hmt, hmtValid, rfl⟩ := hMem.mp hTop
    have hTopHeight : height ≤ mt.blockNumber := hHeight.trans (hAll _ hIn)
    have hMax' : ((dag'.records.filter (!·.invalid)).map (·.blockNumber)).max? = some mt.blockNumber := by
      refine List.max?_eq_some_iff.mpr ⟨hMem.mpr ⟨mt, (hAgree _ _ hTopHeight).mp hmt, hmtValid, rfl⟩, fun n hn => ?_⟩
      obtain ⟨m', hm', hm'Valid, rfl⟩ := hMem.mp hn
      rcases Int.lt_or_le m'.blockNumber height with hBelow | hAbove
      · omega
      · exact hAll _ (hMem.mpr ⟨m', (hAgree _ _ hAbove).mpr hm', hm'Valid, rfl⟩)
    rw [latestBlockNumber, latestBlockNumber, hMax, hMax']

variable {latestMessages : LatestMessages}

theorem heldLatestMessages_transfer (hAgree : AgreeFrom height dag dag')
    (hLatest : ∀ message ∈ messagesOf latestMessages, HeldFrom dag height message.2) :
    heldLatestMessages dag' latestMessages = heldLatestMessages dag latestMessages := by
  refine List.filter_congr fun message hMessage => ?_
  rw [hAgree.lookup_eq (hLatest message hMessage)]

theorem mem_heldLatestMessages {message : Bytes × Bytes}
    (h : message ∈ heldLatestMessages dag latestMessages) :
    message ∈ messagesOf latestMessages ∧ ∃ m, dag.lookup message.2 = some m ∧ m.invalid = false := by
  obtain ⟨hMem, hHeld⟩ := List.mem_filter.mp h
  refine ⟨hMem, ?_⟩
  split at hHeld
  · cases hHeld
  case h_2 m hm => exact ⟨m, hm, by simpa using hHeld⟩

theorem heldFrom_of_heldLatestMessages
    (hLatest : ∀ message ∈ messagesOf latestMessages, HeldFrom dag height message.2) :
    ∀ message ∈ heldLatestMessages dag latestMessages, ∃ m, dag.lookup message.2 = some m ∧ m.invalid = false ∧
      height ≤ m.blockNumber := by
  intro message hMessage
  obtain ⟨hMem, m, hm, hValid⟩ := mem_heldLatestMessages hMessage
  obtain ⟨m', hm', hHeight⟩ := hLatest message hMem
  obtain rfl := Option.some.inj (hm.symm.trans hm')
  exact ⟨m, hm, hValid, hHeight⟩

theorem recentLatestMessages_transfer (hAgree : AgreeFrom height dag dag')
    (hLatest : ∀ message ∈ messages, ∃ m, dag.lookup message.2 = some m ∧ m.invalid = false ∧ height ≤ m.blockNumber) :
    recentLatestMessages dag' messages = recentLatestMessages dag messages := by
  cases messages with
  | nil => rfl
  | cons first messages =>
    obtain ⟨m, hm, hValid, hHeight⟩ := hLatest first List.mem_cons_self
    have hLookups : (first :: messages).filterMap (fun entry => dag'.lookup entry.2) =
        (first :: messages).filterMap fun entry => dag.lookup entry.2 := by
      refine List.filterMap_congr fun message hMessage => ?_
      obtain ⟨m, hm, -, hHeight⟩ := hLatest message hMessage
      exact hAgree.lookup_eq ⟨m, hm, hHeight⟩
    rw [recentLatestMessages, recentLatestMessages, hLookups, latestBlockNumber_transfer hAgree hm hHeight hValid]

def searchStart (dag : KeyValueDagRepresentation) (messages : List (Bytes × Bytes)) : List BlockMetadata :=
  insertAllDescending (recentLatestMessages dag messages) []

theorem calculateLca_transfer (hAgree : AgreeFrom floor.blockNumber dag dag')
    (hFloor : dag.lookup floor.blockHash = some floor)
    (hLatest : ∀ message ∈ messages, ∃ m, dag.lookup message.2 = some m ∧ m.invalid = false ∧
      floor.blockNumber ≤ m.blockNumber) (hReads : ExpandsAbove dag floor floor.blockNumber (searchStart dag messages))
    (hRun : calculateLca dag floor messages = .ok lca) :
    calculateLca dag' floor messages = .ok lca ∧ HeldFrom dag floor.blockNumber lca := by
  have hRecent : ∀ m ∈ recentLatestMessages dag messages, dag.lookup m.blockHash = some m ∧
      floor.blockNumber ≤ m.blockNumber := by
    intro m hm
    obtain ⟨message, hMessage, hLookup⟩ := List.mem_filterMap.mp (List.mem_of_mem_filter hm)
    obtain ⟨m', hm', -, hHeight⟩ := hLatest message hMessage
    obtain rfl := Option.some.inj (hLookup.symm.trans hm')
    exact ⟨blockHash_of_lookup hLookup ▸ hLookup, hHeight⟩
  rw [calculateLca] at hRun ⊢
  rw [recentLatestMessages_transfer hAgree hLatest]
  cases hBlocks : recentLatestMessages dag messages with
  | nil =>
    rw [hBlocks] at hRun
    obtain rfl := Except.ok.inj hRun
    exact ⟨rfl, floor, hFloor, Int.le_refl _⟩
  | cons first rest =>
    rw [searchStart] at hReads
    rw [hBlocks] at hRun hReads hRecent
    obtain ⟨luca, hLuca, hRun⟩ := exists_of_bind_ok hRun
    obtain rfl := Except.ok.inj hRun
    cases rest with
    | nil =>
      obtain rfl := Except.ok.inj hLuca
      exact ⟨rfl, first, hRecent first List.mem_cons_self⟩
    | cons second rest =>
      have hAbove : ∀ m ∈ insertAllDescending (first :: second :: rest) [], dag.lookup m.blockHash = some m ∧
          floor.blockNumber ≤ m.blockNumber := by
        intro m hm
        rcases mem_of_mem_insertAllDescending hm with hm | hm
        · exact hRecent m hm
        · cases hm
      have hFuel : ∀ head ∈ (insertAllDescending (first :: second :: rest) []).head?,
          dag'.countAfter head ≤ dag'.records.length := fun _ _ => List.countP_le_length
      obtain ⟨hLuca', hHeld⟩ := lucaLoop_transfer hAgree hLuca hAbove (pairwise_insertAllDescending _ .nil) hReads hFuel
      refine ⟨?_, ?_⟩
      · change (dag'.lucaLoop floor dag'.records.length (insertAllDescending (first :: second :: rest) []) >>= _) = _
        rw [hLuca']
        rfl
      · rcases hHeld with rfl | hHeld
        · exact ⟨_, hFloor, Int.le_refl _⟩
        · exact ⟨luca, hHeld⟩

theorem filterDeepParents_transfer (hAgree : AgreeFrom height dag dag') {hashes : List Bytes}
    (hHeld : ∀ hash ∈ hashes, HeldFrom dag height hash) (maxParentDepth? : Option Int) :
    filterDeepParents dag' hashes maxParentDepth? = filterDeepParents dag hashes maxParentDepth? := by
  have hLookup : ∀ hash ∈ hashes, dag'.lookupUnsafe hash = dag.lookupUnsafe hash := fun hash hMem => by
    rw [lookupUnsafe, lookupUnsafe, hAgree.lookup_eq (hHeld hash hMem)]
  cases maxParentDepth? with
  | none => rfl
  | some depth =>
    cases hashes with
    | nil => rfl
    | cons main rest =>
      obtain ⟨hMain, hRest⟩ := List.forall_mem_cons.mp hLookup
      rw [filterDeepParents, filterDeepParents, hMain, mapM_congr hRest]

/-- All that the choice reads is from the height of the floor on: the parents of what the search expands, and the blocks
that the walks credit with their main parents. -/
structure ReadsFromFloor (dag : KeyValueDagRepresentation) (floor : BlockMetadata) (messages : List (Bytes × Bytes)) :
    Prop where
  expanded : ExpandsAbove dag floor floor.blockNumber (searchStart dag messages)
  credited : ∀ lca m, calculateLca dag floor messages = .ok lca → dag.lookup lca = some m →
    ∀ message ∈ messages, CreditsAbove dag floor.blockNumber m.blockNumber message.2

theorem tipsWithLatestMessages_transfer (hAgree : AgreeFrom floor.blockNumber dag dag')
    (hFloor : dag.lookup floor.blockHash = some floor)
    (hLatest : ∀ message ∈ messagesOf latestMessages, HeldFrom dag floor.blockNumber message.2)
    (hReads : ReadsFromFloor dag floor (heldLatestMessages dag latestMessages)) {cap : Int} {depth? : Option Int}
    {choice : ForkChoice} (hRun : tipsWithLatestMessages dag floor latestMessages cap depth? = .ok choice) :
    tipsWithLatestMessages dag' floor latestMessages cap depth? = .ok choice ∧
      HeldFrom dag floor.blockNumber choice.lca := by
  have hMessages := heldFrom_of_heldLatestMessages hLatest
  obtain ⟨lca, hLca, hRun⟩ := exists_of_bind_ok hRun
  obtain ⟨scores, hScores, hRun⟩ := exists_of_bind_ok hRun
  obtain ⟨hLca', hLcaHeld⟩ := calculateLca_transfer hAgree hFloor hMessages hReads.expanded hLca
  obtain ⟨m, hm, hHeight⟩ := hLcaHeld
  obtain ⟨hScores', hScored⟩ := buildScoresMap_transfer hAgree hm hHeight
    (fun message hMem => (hMessages message hMem).imp fun _ h => h.1) (hReads.credited lca m hLca hm) hScores
  have hRanked : ∀ hash ∈ rankForkchoices dag lca (heldLatestMessages dag latestMessages) scores,
      HeldFrom dag floor.blockNumber hash := by
    refine List.forall_mem_cons.mpr ⟨?_, fun hash hMem => ?_⟩
    · refine descend_invariant (P := HeldFrom dag floor.blockNumber) (fun head child rest _ hSort => ?_) _
        ⟨m, hm, hHeight⟩
      have hChild : child ∈ sortByWithDecreasingOrder (scoredMainChildren dag head scores) scores :=
        hSort ▸ List.mem_cons_self
      exact hScored child (mem_scoredMainChildren.mp (mem_sortByWithDecreasingOrder.mp hChild)).1
    · have hFrontier := List.mem_of_mem_filter (List.mem_dedup.mp (mem_sortByWithDecreasingOrder.mp hMem))
      obtain ⟨message, hMessage, rfl⟩ := List.mem_map.mp hFrontier
      obtain ⟨m', hm', -, hHeight'⟩ := hMessages message hMessage
      exact ⟨m', hm', hHeight'⟩
  refine ⟨?_, ?_⟩
  · rw [tipsWithLatestMessages, heldLatestMessages_transfer hAgree hLatest, hLca']
    change (buildScoresMap dag' _ lca >>= _) = _
    rw [hScores']
    change (filterDeepParents dag' (rankForkchoices dag' lca _ scores) depth? >>= _) = _
    rw [rankForkchoices_transfer hAgree hScored ⟨m, hm, hHeight⟩, filterDeepParents_transfer hAgree hRanked]
    exact hRun
  · obtain ⟨shallow, -, hRun⟩ := exists_of_bind_ok hRun
    obtain rfl := Except.ok.inj hRun
    exact ⟨m, hm, hHeight⟩

theorem expandsAbove_of_truncate {luca : BlockMetadata}
    (h : (dag.truncate height).lucaLoop floor fuel blocks = .ok luca) : ExpandsAbove dag floor height blocks := by
  induction fuel generalizing blocks with
  | zero =>
    intro head second rest hReach hHigh
    obtain rfl | ⟨next, ⟨first, _, _, _, rfl, _⟩, -⟩ := Relation.ReflTransGen.cases_head hReach <;> cases h
  | succ fuel ih =>
    intro head second rest hReach hHigh parent hParent p hp
    have hStep : ∀ {first second' rest'}, blocks = first :: second' :: rest' →
        floor.blockNumber < first.blockNumber → ∃ parents, first.parents.mapM (dag.truncate height).lookupUnsafe =
          .ok parents ∧ (dag.truncate height).lucaLoop floor fuel (insertAllDescending parents (second' :: rest')) =
            .ok luca := by
      rintro first second' rest' rfl hFirst
      rw [lucaLoop_succ, if_neg (Int.not_le.mpr hFirst)] at h
      exact exists_of_bind_ok h
    obtain rfl | ⟨next, ⟨first, second', rest', parents, rfl, hFirst, hParents, rfl⟩, hReach⟩ :=
      Relation.ReflTransGen.cases_head hReach
    · obtain ⟨parents, hParents, -⟩ := hStep rfl hHigh
      obtain ⟨p', -, hLookup⟩ := exists_of_mapM_ok hParents hParent
      obtain ⟨hp', hHeight⟩ := lookup_truncate.mp (lookupUnsafe_eq_ok.mp hLookup)
      rwa [Option.some.inj (hp.symm.trans hp')]
    · obtain ⟨parents', hParents', hNext⟩ := hStep rfl hFirst
      have hSame : first.parents.mapM dag.lookupUnsafe = first.parents.mapM (dag.truncate height).lookupUnsafe := by
        refine mapM_congr fun parent hParent => ?_
        obtain ⟨p', -, hLookup⟩ := exists_of_mapM_ok hParents' hParent
        rw [hLookup, lookupUnsafe_eq_ok]
        exact (lookup_truncate.mp (lookupUnsafe_eq_ok.mp hLookup)).1
      obtain rfl := Except.ok.inj ((hParents.symm.trans hSame).trans hParents')
      exact ih hNext head second rest hReach hHigh parent hParent p hp

theorem creditsAbove_of_truncate {lcaBlockNum : Int} {message : Bytes}
    (h : ∀ x, Credited (dag.truncate height) lcaBlockNum message x → Weighed (dag.truncate height) x) :
    CreditsAbove dag height lcaBlockNum message := by
  have hCredited : ∀ x, Credited dag lcaBlockNum message x → Credited (dag.truncate height) lcaBlockNum message x := by
    intro x hx
    induction hx with
    | refl => exact .refl
    | @tail y z _ hStep ih =>
      obtain ⟨m, hm, hLe, hHead⟩ := hStep
      obtain ⟨m', hm', -⟩ := h y ih
      obtain rfl := Option.some.inj (hm.symm.trans (lookup_truncate.mp hm').1)
      exact .tail ih ⟨m, hm', hLe, hHead⟩
  intro x m hx hm
  obtain ⟨m', hm', hMain⟩ := h x (hCredited x hx)
  obtain ⟨hLookup, hHeight⟩ := lookup_truncate.mp hm'
  obtain rfl := Option.some.inj (hm.symm.trans hLookup)
  refine ⟨hHeight, fun parent p hHead hp => ?_⟩
  obtain ⟨p', hp'⟩ := hMain parent hHead
  obtain ⟨hLookup', hHeight'⟩ := lookup_truncate.mp hp'
  rwa [Option.some.inj (hp.symm.trans hLookup')]

theorem expandsAbove_of_length_le (h : blocks.length ≤ 1) :
    ExpandsAbove dag floor height blocks := by
  intro head second rest hReach
  obtain rfl | ⟨next, ⟨first, _, _, _, rfl, _⟩, -⟩ := Relation.ReflTransGen.cases_head hReach <;>
    simp at h

theorem readsFromFloor_of_truncate
    (hLatest : ∀ message ∈ messagesOf latestMessages, HeldFrom dag floor.blockNumber message.2) {cap : Int}
    {depth? : Option Int} {choice : ForkChoice}
    (hRun : tipsWithLatestMessages dag floor latestMessages cap depth? = .ok choice)
    (hRun' : tipsWithLatestMessages (dag.truncate floor.blockNumber) floor latestMessages cap depth? = .ok choice) :
    ReadsFromFloor dag floor (heldLatestMessages dag latestMessages) := by
  have hAgree : AgreeFrom floor.blockNumber dag (dag.truncate floor.blockNumber) := agreeFrom_truncate
  have hMessages := heldFrom_of_heldLatestMessages hLatest
  obtain ⟨lca, hLca, hRest⟩ := exists_of_bind_ok hRun
  obtain ⟨scores, -, hRest⟩ := exists_of_bind_ok hRest
  obtain ⟨shallow, -, hRest⟩ := exists_of_bind_ok hRest
  obtain rfl := Except.ok.inj hRest
  rw [tipsWithLatestMessages, heldLatestMessages_transfer hAgree hLatest] at hRun'
  obtain ⟨lca', hLca', hRest⟩ := exists_of_bind_ok hRun'
  obtain ⟨scores', hScores', hRest⟩ := exists_of_bind_ok hRest
  obtain ⟨shallow', -, hRest⟩ := exists_of_bind_ok hRest
  obtain rfl : lca' = lca := congrArg ForkChoice.lca (Except.ok.inj hRest)
  refine ⟨?_, fun lca₁ m hLca₁ hm message hMessage => ?_⟩
  · rw [calculateLca, recentLatestMessages_transfer hAgree hMessages] at hLca'
    rw [searchStart]
    rcases hBlocks : recentLatestMessages dag (heldLatestMessages dag latestMessages) with _ | ⟨first, _ | ⟨second, rest⟩⟩
    · exact expandsAbove_of_length_le (Nat.zero_le 1)
    · exact expandsAbove_of_length_le (Nat.le_refl 1)
    · rw [hBlocks] at hLca'
      obtain ⟨luca, hLuca, -⟩ := exists_of_bind_ok hLca'
      exact expandsAbove_of_truncate hLuca
  · obtain rfl := Except.ok.inj (hLca.symm.trans hLca₁)
    have hHeld : ∀ message ∈ heldLatestMessages dag latestMessages,
        ∃ m, (dag.truncate floor.blockNumber).lookup message.2 = some m := by
      intro message hMessage
      obtain ⟨m, hm, -, hHeight⟩ := hMessages message hMessage
      exact ⟨m, lookup_truncate.mpr ⟨hm, hHeight⟩⟩
    obtain ⟨m', hm', hVisits⟩ := buildScoresMap_visits hScores' hHeld hMessage
    obtain rfl := Option.some.inj (hm.symm.trans (lookup_truncate.mp hm').1)
    exact creditsAbove_of_truncate fun x hx => (hVisits x hx).2

end F1r3Node.Dag
