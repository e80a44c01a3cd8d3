import F1r3Node.Dag.Scores

/-! # The fork choice follows the majority

A block that more than half of the weight stands behind outweighs every sibling at each step of the way up from
the common ancestor, so that the walk to the head comes through it.
-/

namespace F1r3Node.Dag

open Shared Lib Estimator KeyValueDagRepresentation

theorem ranksBefore_iff {scores : Scores} {a b : Bytes} :
    ranksBefore scores a b = true ↔
      score scores b < score scores a ∨ score scores a = score scores b ∧ a ≤ b :=
  decide_eq_true_iff

instance (scores : Scores) : Std.Total fun a b => ranksBefore scores a b = true where
  total a b := by
    rw [ranksBefore_iff, ranksBefore_iff]
    rcases Int.lt_trichotomy (score scores a) (score scores b) with hLt | hEq | hLt
    · exact .inr (.inl hLt)
    · rcases List.le_total a b with hLe | hLe
      · exact .inl (.inr ⟨hEq, hLe⟩)
      · exact .inr (.inr ⟨hEq.symm, hLe⟩)
    · exact .inl (.inl hLt)

instance (scores : Scores) : IsTrans Bytes fun a b => ranksBefore scores a b = true where
  trans a b c hab hbc := by
    rw [ranksBefore_iff] at hab hbc ⊢
    rcases hab with hab | ⟨hab, hHash⟩
    · rcases hbc with hbc | ⟨hbc, -⟩
      · exact .inl (hbc.trans hab)
      · exact .inl (hbc ▸ hab)
    · rcases hbc with hbc | ⟨hbc, hHash'⟩
      · exact .inl (hab ▸ hbc)
      · exact .inr ⟨hab.trans hbc, List.le_trans hHash hHash'⟩

theorem mem_sortByWithDecreasingOrder {list : List Bytes} {scores : Scores} {hash : Bytes} :
    hash ∈ sortByWithDecreasingOrder list scores ↔ hash ∈ list :=
  List.mem_insertionSort _

theorem sortByWithDecreasingOrder_eq_cons {list : List Bytes} {scores : Scores} {hash : Bytes} (hMem : hash ∈ list)
    (hMax : ∀ other ∈ list, other ≠ hash → score scores other < score scores hash) :
    ∃ rest, sortByWithDecreasingOrder list scores = hash :: rest := by
  have hSorted := List.pairwise_insertionSort (fun a b => ranksBefore scores a b = true) list
  have hIn : hash ∈ sortByWithDecreasingOrder list scores := mem_sortByWithDecreasingOrder.mpr hMem
  have hAll : ∀ other, other ∈ sortByWithDecreasingOrder list scores → other ∈ list := fun _ =>
    mem_sortByWithDecreasingOrder.mp
  change (sortByWithDecreasingOrder list scores).Pairwise _ at hSorted
  cases hSort : sortByWithDecreasingOrder list scores with
  | nil =>
    rw [hSort] at hIn
    cases hIn
  | cons first rest =>
    rw [hSort] at hSorted hIn hAll
    rcases List.mem_cons.mp hIn with rfl | hRest
    · exact ⟨rest, rfl⟩
    · rcases eq_or_ne first hash with rfl | hNe
      · exact ⟨rest, rfl⟩
      · have hBefore := ranksBefore_iff.mp ((List.pairwise_cons.mp hSorted).1 hash hRest)
        have hLess := hMax first (hAll first List.mem_cons_self) hNe
        omega

variable {dag : KeyValueDagRepresentation}

theorem mem_scoredMainChildren {block child : Bytes} {scores : Scores} :
    child ∈ scoredMainChildren dag block scores ↔ child ∈ scores ∧ dag.mainParent child = some block := by
  rw [scoredMainChildren, List.mem_filter, decide_eq_true_iff]
  exact ⟨And.right, fun h => ⟨mem_children_of_mainParent h.2, h⟩⟩

variable {head : Bytes}

theorem descend_invariant {scores : Scores} {P : Bytes → Prop}
    (hStep : ∀ head child rest, P head →
      sortByWithDecreasingOrder (scoredMainChildren dag head scores) scores = child :: rest → P child)
    (fuel : Nat) (hHead : P head) : P (descend dag scores fuel head) := by
  induction fuel generalizing head with
  | zero => exact hHead
  | succ fuel ih =>
    rw [descend]
    split
    · exact hHead
    case h_2 child rest hSort => exact ih (hStep head child rest hHead hSort)

theorem mainParent_of_sort {scores : Scores} {child : Bytes} {rest : List Bytes}
    (h : sortByWithDecreasingOrder (scoredMainChildren dag head scores) scores = child :: rest) :
    dag.mainParent child = some head := by
  have hMem : child ∈ sortByWithDecreasingOrder (scoredMainChildren dag head scores) scores := by
    rw [h]
    exact List.mem_cons_self
  exact (mem_scoredMainChildren.mp (mem_sortByWithDecreasingOrder.mp hMem)).2

theorem scoredMainChildren_descend {scores : Scores} {fuel : Nat} {m : BlockMetadata}
    (hHead : dag.lookup head = some m) (hFuel : dag.countAbove m.blockNumber ≤ fuel) :
    scoredMainChildren dag (descend dag scores fuel head) scores = [] := by
  have hAbove : ∀ {head child : Bytes} {m : BlockMetadata}, dag.lookup head = some m →
      dag.mainParent child = some head → ∃ c, dag.lookup child = some c ∧
        dag.countAbove c.blockNumber < dag.countAbove m.blockNumber := by
    intro head child m hm hParent
    obtain ⟨c, hc, -⟩ := mainParent_eq_some.mp hParent
    exact ⟨c, hc, countAbove_lt hc (blockNumber_lt_of_mainParent hc hm hParent)⟩
  induction fuel generalizing head m with
  | zero =>
    refine List.eq_nil_iff_forall_not_mem.mpr fun child hChild => ?_
    obtain ⟨c, -, hLt⟩ := hAbove hHead (mem_scoredMainChildren.mp hChild).2
    omega
  | succ fuel ih =>
    rw [descend]
    split
    case h_1 hNil =>
      refine List.eq_nil_iff_forall_not_mem.mpr fun child hChild => ?_
      have hMem : child ∈ sortByWithDecreasingOrder (scoredMainChildren dag head scores) scores :=
        mem_sortByWithDecreasingOrder.mpr hChild
      rw [hNil] at hMem
      cases hMem
    case h_2 child rest hSort =>
      obtain ⟨c, hc, hLt⟩ := hAbove hHead (mainParent_of_sort hSort)
      exact ih hc (by omega)

section Majority

variable {lcaBlockNum : Int} {w : WeightMap} {messages : List (Bytes × Bytes)} {scores : Scores} {block : Bytes}

/-- The validators whose latest message has the block on its spine hold more than half of the weight. -/
def Majority (dag : KeyValueDagRepresentation) (w : WeightMap) (messages : List (Bytes × Bytes)) (block : Bytes) :
    Prop :=
  (weightOf w messages fun _ => True) < 2 * weightOf w messages (dag.OnSpine block)

theorem Majority.heaviest_child (hMajority : Majority dag w messages block)
    (hNonneg : ∀ validator, 0 ≤ w.getD validator 0) (hTally : Tallies dag lcaBlockNum w messages ∅ scores)
    {head : Bytes} {m : BlockMetadata} (hHead : dag.lookup head = some m) (hLe : lcaBlockNum ≤ m.blockNumber)
    (hOn : dag.OnSpine head block) (hNe : head ≠ block) :
    ∃ child rest, sortByWithDecreasingOrder (scoredMainChildren dag head scores) scores = child :: rest ∧
      dag.OnSpine child block := by
  obtain ⟨child, hParent, hChild⟩ := hOn.exists_child hNe
  obtain ⟨c, hc, -⟩ := mainParent_eq_some.mp hParent
  have hHeight : lcaBlockNum ≤ c.blockNumber := hLe.trans (blockNumber_lt_of_mainParent hc hHead hParent).le
  have hEmpty : ∀ hash, score (∅ : Scores) hash = 0 := fun _ => rfl
  have hScore : ∀ hash, score scores hash = weightOf w messages (Credited dag lcaBlockNum · hash) := fun hash => by
    rw [hTally.score_eq, hEmpty, Int.zero_add]
  -- whoever supports the block is counted at the child
  have hSupport : weightOf w messages (dag.OnSpine block) ≤ score scores child := by
    rw [hScore]
    exact weightOf_mono hNonneg fun message _ hBlock => credited_of_onSpine (hChild.trans hBlock) hc hHeight
  have hPos : 0 < weightOf w messages (dag.OnSpine block) := by
    have hTotal : 0 ≤ weightOf w messages fun _ => True := weightOf_nonneg hNonneg
    rw [Majority] at hMajority
    omega
  obtain ⟨message, hMessage, hBlock⟩ := exists_of_weightOf_pos hPos
  have hMem : child ∈ scoredMainChildren dag head scores :=
    mem_scoredMainChildren.mpr ⟨(hTally.mem_iff child).mpr
      (.inr ⟨message, hMessage, credited_of_onSpine (hChild.trans hBlock) hc hHeight⟩), hParent⟩
  -- and nobody who supports the block is counted at a sibling
  have hOthers : ∀ other ∈ scoredMainChildren dag head scores, other ≠ child →
      score scores other < score scores child := by
    intro other hOther hDistinct
    have hDisjoint : weightOf w messages (Credited dag lcaBlockNum · other) +
        weightOf w messages (dag.OnSpine block) ≤ weightOf w messages fun _ => True := by
      refine weightOf_add_le hNonneg fun message _ hCredited hBlock => hDistinct ?_
      exact OnSpine.child_unique (mem_scoredMainChildren.mp hOther).2 hParent hCredited.onSpine
        (hChild.trans hBlock) hHead
    rw [hScore other]
    rw [Majority] at hMajority
    omega
  obtain ⟨rest, hSort⟩ := sortByWithDecreasingOrder_eq_cons hMem hOthers
  exact ⟨child, rest, hSort, hChild⟩

theorem Majority.onSpine_descend (hMajority : Majority dag w messages block)
    (hNonneg : ∀ validator, 0 ≤ w.getD validator 0) {lca : Bytes} {m : BlockMetadata}
    (hLca : dag.lookup lca = some m) (hTally : Tallies dag m.blockNumber w messages ∅ scores)
    (hOn : dag.OnSpine lca block) : dag.OnSpine block (descend dag scores dag.records.length lca) := by
  let P : Bytes → Prop := fun head => (∃ mh, dag.lookup head = some mh ∧ m.blockNumber ≤ mh.blockNumber) ∧
    (dag.OnSpine head block ∨ dag.OnSpine block head)
  have hStep : ∀ head child rest, P head →
      sortByWithDecreasingOrder (scoredMainChildren dag head scores) scores = child :: rest → P child := by
    rintro head child rest ⟨⟨mh, hmh, hLe⟩, hWay⟩ hSort
    have hParent := mainParent_of_sort hSort
    obtain ⟨c, hc, -⟩ := mainParent_eq_some.mp hParent
    refine ⟨⟨c, hc, hLe.trans (blockNumber_lt_of_mainParent hc hmh hParent).le⟩, ?_⟩
    have hUp : dag.OnSpine head child := Relation.ReflTransGen.single hParent
    rcases eq_or_ne head block with rfl | hNe
    · exact .inr hUp
    · rcases hWay with hBelow | hPast
      · obtain ⟨heaviest, rest', hSort', hHeaviest⟩ := hMajority.heaviest_child hNonneg hTally hmh hLe hBelow hNe
        rw [hSort'] at hSort
        obtain ⟨rfl, -⟩ := List.cons.inj hSort
        exact .inl hHeaviest
      · exact .inr (hPast.trans hUp)
  have hEnd : P (descend dag scores dag.records.length lca) :=
    descend_invariant hStep _ ⟨⟨m, hLca, Int.le_refl _⟩, .inl hOn⟩
  have hStop : scoredMainChildren dag (descend dag scores dag.records.length lca) scores = [] :=
    scoredMainChildren_descend hLca (countAbove_le m.blockNumber)
  obtain ⟨⟨mh, hmh, hLe⟩, hBelow | hPast⟩ := hEnd
  · rcases eq_or_ne (descend dag scores dag.records.length lca) block with hEq | hNe
    · rw [hEq]
      exact .refl _
    · obtain ⟨child, rest, hSort, -⟩ := hMajority.heaviest_child hNonneg hTally hmh hLe hBelow hNe
      rw [hStop] at hSort
      cases hSort
  · exact hPast

end Majority

def messagesOf (latestMessages : LatestMessages) : List (Bytes × Bytes) :=
  latestMessages.entries.map fun entry => (entry.1, entry.2)

def ValidLatest (dag : KeyValueDagRepresentation) (latestMessages : LatestMessages) : Prop :=
  ∀ message ∈ messagesOf latestMessages, ∃ m, dag.lookup message.2 = some m ∧ m.invalid = false

theorem ValidLatest.heldLatestMessages {latestMessages : LatestMessages} (h : ValidLatest dag latestMessages) :
    heldLatestMessages dag latestMessages = messagesOf latestMessages := by
  refine List.filter_eq_self.mpr fun message hMem => ?_
  obtain ⟨m, hm, hValid⟩ := h message hMem
  rw [hm]
  dsimp only
  rw [hValid]
  rfl

theorem calculateLca_returns (hHeld : dag.FullyHeld) {floor : BlockMetadata}
    (hFloor : dag.lookup floor.blockHash = some floor) (messages : List (Bytes × Bytes)) :
    Returns (calculateLca dag floor messages) fun lca => ∃ m, dag.lookup lca = some m := by
  rw [calculateLca]
  split
  · exact ⟨floor.blockHash, rfl, floor, hFloor⟩
  case h_2 hNe =>
    have hRecent : ∀ m ∈ recentLatestMessages dag messages, m ∈ dag.records := by
      intro m hm
      obtain ⟨message, -, hLookup⟩ := List.mem_filterMap.mp (List.mem_of_mem_filter hm)
      exact mem_records_of_lookup hLookup
    refine (hHeld.luca_returns (mem_records.mpr hFloor) hRecent hNe).bind fun luca hLuca => ?_
    exact .pure ⟨luca, mem_records.mp hLuca⟩

theorem lookup_descend {scores : Scores} {lca : Bytes} {m : BlockMetadata} (hLca : dag.lookup lca = some m)
    (fuel : Nat) : ∃ mh, dag.lookup (descend dag scores fuel lca) = some mh := by
  refine descend_invariant (P := fun head => ∃ mh, dag.lookup head = some mh) ?_ fuel ⟨m, hLca⟩
  intro head child rest _ hSort
  obtain ⟨c, hc, -⟩ := mainParent_eq_some.mp (mainParent_of_sort hSort)
  exact ⟨c, hc⟩

theorem filterDeepParents_returns {rest : List Bytes}
    (hHeld : ∀ hash ∈ head :: rest, ∃ m, dag.lookup hash = some m) (maxParentDepth? : Option Int) :
    Returns (filterDeepParents dag (head :: rest) maxParentDepth?) (·.head? = some head) := by
  obtain ⟨⟨m, hm⟩, hRest⟩ := List.forall_mem_cons.mp hHeld
  cases maxParentDepth? with
  | none => exact ⟨head :: rest, rfl, rfl⟩
  | some maxParentDepth =>
    rw [filterDeepParents, lookupUnsafe, hm]
    have hMap : Returns (rest.mapM dag.lookupUnsafe) fun parents => ∀ p ∈ parents, p ∈ dag.records := by
      refine Returns.mapM fun hash hMem => ?_
      obtain ⟨p, hp⟩ := hRest hash hMem
      exact ⟨p, by rw [lookupUnsafe, hp], mem_records_of_lookup hp⟩
    exact hMap.bind fun parents _ => .pure rfl

/-- On a fully held DAG with one weight map the choice fails only by an overflow, and the spine of its first tip goes
through every block above the common ancestor that has the majority. -/
theorem tipsWithLatestMessages_follows_majority (hHeld : dag.FullyHeld) {w : WeightMap}
    (hWeights : dag.SameWeights w) (hNonneg : ∀ validator, 0 ≤ w.getD validator 0) {floor : BlockMetadata}
    (hFloor : dag.lookup floor.blockHash = some floor) {latestMessages : LatestMessages}
    (hLatest : ValidLatest dag latestMessages) (maxNumberOfParents : Int) (maxParentDepth? : Option Int) :
    ReturnsUnless scoreOverflow
      (tipsWithLatestMessages dag floor latestMessages maxNumberOfParents maxParentDepth?) fun choice =>
      (maxNumberOfParents ≠ 0 → choice.tips ≠ []) ∧
      ∀ block, dag.OnSpine choice.lca block → Majority dag w (messagesOf latestMessages) block →
        ∀ tip, choice.tips.head? = some tip → dag.OnSpine block tip := by
  rw [tipsWithLatestMessages, hLatest.heldLatestMessages]
  refine ReturnsUnless.bind (.inr (calculateLca_returns hHeld hFloor _)) fun lca hLca => ?_
  obtain ⟨m, hm⟩ := hLca
  have hMessages : ∀ message ∈ messagesOf latestMessages, ∃ m, dag.lookup message.2 = some m := by
    intro message hMem
    obtain ⟨m, hm, -⟩ := hLatest message hMem
    exact ⟨m, hm⟩
  refine (buildScoresMap_returns hHeld hWeights hm hMessages).bind fun scores hTally => ?_
  have hRanked : ∀ hash ∈ rankForkchoices dag lca (messagesOf latestMessages) scores,
      ∃ m, dag.lookup hash = some m := by
    refine List.forall_mem_cons.mpr ⟨lookup_descend hm _, fun hash hMem => ?_⟩
    have hFrontier := List.mem_of_mem_filter (List.mem_dedup.mp (mem_sortByWithDecreasingOrder.mp hMem))
    obtain ⟨message, hMessage, rfl⟩ := List.mem_map.mp hFrontier
    exact hMessages message hMessage
  refine ReturnsUnless.bind (.inr (filterDeepParents_returns hRanked maxParentDepth?)) fun shallow hHead => ?_
  refine .inr (.pure ⟨fun hCap => ?_, fun block hOn hMajority tip hTip => ?_⟩)
  · have hNe : shallow ≠ [] := by
      rintro rfl
      cases hHead
    dsimp only
    split
    · exact hNe
    case isFalse hLimited =>
      rw [Ne, List.take_eq_nil_iff, not_or]
      exact ⟨by omega, hNe⟩
  · have hTip : shallow.head? = some tip := by
      dsimp only at hTip
      split at hTip
      · exact hTip
      · rw [List.head?_take] at hTip
        split at hTip
        · cases hTip
        · exact hTip
    rw [← Option.some.inj (hHead.symm.trans hTip)]
    exact hMajority.onSpine_descend hNonneg hm hTally hOn

def forkWeights : WeightMap := ⟨[([7], 5), ([8], 2)], by decide⟩

def forkBlock (hash : Bytes) (parents : List Bytes) (number : Int) : BlockMetadata where
  blockHash := hash
  parents := parents
  sender := []
  justifications := []
  weightMap := forkWeights
  blockNumber := number
  sequenceNumber := 0
  invalid := false
  mergeBase := []

def forkedDag : KeyValueDagRepresentation :=
  .ofRecords [forkBlock [0] [] 0, forkBlock [1] [[0]] 1, forkBlock [2] [[0]] 1, forkBlock [3] [[1]] 2]
    (by decide) (by decide) (by decide)

def forkedLatest : LatestMessages := (∅ : LatestMessages).insert [8] [2] |>.insert [7] [3]

/-- The head is on the branch of the larger stake. -/
theorem forkedDag_follows_majority :
    ∃ choice, tipsWithLatestMessages forkedDag (forkBlock [0] [] 0) forkedLatest 10 none = .ok choice ∧
      choice.tips.head? = some [3] ∧ forkedDag.OnSpine [1] [3] := by
  have hHeld : forkedDag.FullyHeld := by
    rw [fullyHeld_iff, forkedDag, records_ofRecords]
    decide
  have hWeights : forkedDag.SameWeights forkWeights := by
    intro hash m hm
    have hMem := mem_records_of_lookup hm
    rw [forkedDag, records_ofRecords] at hMem
    have hAll : ∀ m ∈ [forkBlock [0] [] 0, forkBlock [1] [[0]] 1, forkBlock [2] [[0]] 1, forkBlock [3] [[1]] 2],
        m.weightMap = forkWeights := by decide
    exact hAll m hMem
  have hNonneg : ∀ validator, 0 ≤ forkWeights.getD validator 0 := by
    intro validator
    rw [WeightMap.getD, WeightMap.get?, forkWeights, List.lookup_cons, List.lookup_cons, List.lookup_nil]
    split
    · decide
    · split <;> decide
  have hLatest : ValidLatest forkedDag forkedLatest :=
    List.forall_mem_cons.mpr ⟨⟨forkBlock [3] [[1]] 2, rfl, rfl⟩,
      List.forall_mem_cons.mpr ⟨⟨forkBlock [2] [[0]] 1, rfl, rfl⟩, by simp⟩⟩
  have hFirst : forkedDag.OnSpine [0] [1] := Relation.ReflTransGen.single rfl
  have hSecond : forkedDag.OnSpine [1] [3] := Relation.ReflTransGen.single rfl
  have hMajority : Majority forkedDag forkWeights (messagesOf forkedLatest) [1] := by
    have hMessages : messagesOf forkedLatest = [([7], [3]), ([8], [2])] := rfl
    have hLarge : forkWeights.getD [7] 0 = 5 := rfl
    have hSmall : forkWeights.getD [8] 0 = 2 := rfl
    rw [Majority, hMessages]
    simp only [weightOf, List.map_cons, List.map_nil, List.sum_cons, List.sum_nil, if_pos trivial, if_pos hSecond,
      hLarge, hSmall]
    split <;> omega
  have hFloor : forkedDag.lookup (forkBlock [0] [] 0).blockHash = some (forkBlock [0] [] 0) := rfl
  obtain hFail | ⟨choice, hChoice, -, hSpine⟩ :=
    tipsWithLatestMessages_follows_majority hHeld hWeights hNonneg hFloor hLatest 10 none
  · cases hFail
  · obtain rfl := Except.ok.inj hChoice
    exact ⟨_, hChoice, rfl, hSpine [1] hFirst hMajority [3] rfl⟩

end F1r3Node.Dag
