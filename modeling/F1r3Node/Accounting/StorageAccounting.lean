import F1r3Node.Accounting.ChargingRSpace
import F1r3Node.Space.MatchedData
import Mathlib.Algebra.BigOperators.Group.Finset.Piecewise

/-! # Storage charges against the store

The charges of an operation agree with the change in the cost of the store when the join that fires names no channel
twice and nothing else could fire before.
-/

namespace F1r3Node.Accounting

open Space HotStore RSpace

variable {Par BindPattern : Type} [DecidableEq Par] (len : EncodedLen Par BindPattern)

abbrev Store (Par BindPattern : Type) :=
  HotStore Par BindPattern (ListParWithRandom Par) (TaggedContinuation Par)

abbrev SpaceOp (Par BindPattern : Type) := Op Par BindPattern (ListParWithRandom Par) (TaggedContinuation Par)

def dataCost (s : Store Par BindPattern) (channel : Par) : Int :=
  ((s.storedData channel).map fun d => (storageCostProduce len channel d.a).value).sum

def continuationsCost (s : Store Par BindPattern) (channels : List Par) : Int :=
  ((s.storedContinuations channels).map fun w =>
    (storageCostConsume len channels w.patterns w.continuation).value).sum

/-- The stores differ on finitely many channels and joins only, and the cost of what they hold there
by the amount. -/
def StorageChange (s t : Store Par BindPattern) (amount : Int) : Prop :=
  ∃ (F : Finset Par) (G : Finset (List Par)),
    (∀ c ∉ F, t.storedData c = s.storedData c) ∧
    (∀ cs ∉ G, t.storedContinuations cs = s.storedContinuations cs) ∧
    ∑ c ∈ F, (dataCost len t c - dataCost len s c) +
      ∑ cs ∈ G, (continuationsCost len t cs - continuationsCost len s cs) = amount

def isStorage (c : Charge) : Bool :=
  c.operation ∈ ["consume storage", "produces storage", "consume storage refund", "produces storage refund"]

def storageSum (charges : List Charge) : Int := ((charges.filter isStorage).map Charge.value).sum

variable {len}

variable {s t : Store Par BindPattern}

theorem StorageChange.of_sameView (h : SameView t s) :
    StorageChange len s t 0 :=
  ⟨∅, ∅, fun c _ => h.data c, fun cs _ => h.continuations cs, by simp⟩

theorem sum_sub_union {α : Type} [DecidableEq α] {F F' : Finset α} {f g h : α → Int}
    (hF : ∀ a ∉ F, g a = f a) (hF' : ∀ a ∉ F', h a = g a) :
    ∑ a ∈ F ∪ F', (h a - f a) = ∑ a ∈ F, (g a - f a) + ∑ a ∈ F', (h a - g a) := by
  have hLeft : ∑ a ∈ F, (g a - f a) = ∑ a ∈ F ∪ F', (g a - f a) := by
    apply Finset.sum_subset Finset.subset_union_left
    intro a _ ha
    rw [hF a ha, sub_self]
  have hRight : ∑ a ∈ F', (h a - g a) = ∑ a ∈ F ∪ F', (h a - g a) := by
    apply Finset.sum_subset Finset.subset_union_right
    intro a _ ha
    rw [hF' a ha, sub_self]
  rw [hLeft, hRight, ← Finset.sum_add_distrib]
  apply Finset.sum_congr rfl
  intro a _
  omega

theorem dataCost_congr {c : Par} (h : t.storedData c = s.storedData c) :
    dataCost len t c = dataCost len s c := by
  rw [dataCost, dataCost, h]

theorem continuationsCost_congr {cs : List Par}
    (h : t.storedContinuations cs = s.storedContinuations cs) :
    continuationsCost len t cs = continuationsCost len s cs := by
  rw [continuationsCost, continuationsCost, h]

theorem StorageChange.trans {u : Store Par BindPattern} {a b : Int} (h : StorageChange len s t a)
    (h' : StorageChange len t u b) : StorageChange len s u (a + b) := by
  obtain ⟨F, G, hData, hConts, rfl⟩ := h
  obtain ⟨F', G', hData', hConts', rfl⟩ := h'
  refine ⟨F ∪ F', G ∪ G', fun c hc => ?_, fun cs hcs => ?_, ?_⟩
  · rw [Finset.notMem_union] at hc
    rw [hData' c hc.2, hData c hc.1]
  · rw [Finset.notMem_union] at hcs
    rw [hConts' cs hcs.2, hConts cs hcs.1]
  · rw [sum_sub_union (fun c hc => dataCost_congr (hData c hc)) fun c hc => dataCost_congr (hData' c hc),
      sum_sub_union (fun cs hcs => continuationsCost_congr (hConts cs hcs))
        fun cs hcs => continuationsCost_congr (hConts' cs hcs)]
    omega

theorem sum_eq_of_support {α : Type} [DecidableEq α] {F F' : Finset α} {f : α → Int}
    (hF : ∀ a ∉ F, f a = 0) (hF' : ∀ a ∉ F', f a = 0) : ∑ a ∈ F, f a = ∑ a ∈ F', f a := by
  have hLeft : F ⊆ F ∪ F' := Finset.subset_union_left
  have hRight : F' ⊆ F ∪ F' := Finset.subset_union_right
  rw [Finset.sum_subset hLeft fun a _ ha => hF a ha, Finset.sum_subset hRight fun a _ ha => hF' a ha]

theorem StorageChange.unique {a b : Int} (h : StorageChange len s t a)
    (h' : StorageChange len s t b) : a = b := by
  obtain ⟨F, G, hData, hConts, rfl⟩ := h
  obtain ⟨F', G', hData', hConts', rfl⟩ := h'
  have hSumData := sum_eq_of_support (f := fun c => dataCost len t c - dataCost len s c)
    (fun c hc => sub_eq_zero.mpr (dataCost_congr (hData c hc)))
    fun c hc => sub_eq_zero.mpr (dataCost_congr (hData' c hc))
  have hSumConts := sum_eq_of_support (f := fun cs => continuationsCost len t cs - continuationsCost len s cs)
    (fun cs hcs => sub_eq_zero.mpr (continuationsCost_congr (hConts cs hcs)))
    fun cs hcs => sub_eq_zero.mpr (continuationsCost_congr (hConts' cs hcs))
  rw [hSumData, hSumConts]

theorem storageChange_putDatum (s : Store Par BindPattern) (channel : Par)
    (d : Datum (ListParWithRandom Par)) :
    StorageChange len s (s.putDatum channel d) (storageCostProduce len channel d.a).value := by
  refine ⟨{channel}, ∅, fun c hc => ?_, fun cs _ => rfl, ?_⟩
  · rw [putDatum, storedData_withData, if_neg (by simpa using hc)]
  · rw [Finset.sum_singleton, Finset.sum_empty, dataCost, dataCost, putDatum, storedData_withData,
      if_pos rfl, List.map_cons, List.sum_cons]
    omega

def leavingCost (len : EncodedLen Par BindPattern)
    (cands : List (ConsumeCandidate Par (ListParWithRandom Par))) : Int :=
  ((cands.filter fun cand => cand.datum.persist = false ∧ 0 ≤ cand.datumIndex).map fun cand =>
    (storageCostProduce len cand.channel cand.removedDatum).value).sum

omit [DecidableEq Par] in
theorem leavingCost_cons (cand : ConsumeCandidate Par (ListParWithRandom Par))
    (cands : List (ConsumeCandidate Par (ListParWithRandom Par))) :
    leavingCost len (cand :: cands) =
      (if cand.datum.persist = false ∧ 0 ≤ cand.datumIndex then
        (storageCostProduce len cand.channel cand.removedDatum).value else 0) +
      leavingCost len cands := by
  unfold leavingCost
  rw [List.filter_cons]
  by_cases hLeaves : cand.datum.persist = false ∧ 0 ≤ cand.datumIndex
  · simp [hLeaves]
  · simp [hLeaves]

def listedCost (len : EncodedLen Par BindPattern)
    (cands : List (ConsumeCandidate Par (ListParWithRandom Par))) (channel : Par) : Int :=
  ((listed channel cands).map fun d => (storageCostProduce len channel d.a).value).sum

theorem listedCost_cons (cand : ConsumeCandidate Par (ListParWithRandom Par))
    (cands : List (ConsumeCandidate Par (ListParWithRandom Par))) (channel : Par) :
    listedCost len (cand :: cands) channel =
      (if channel = cand.channel then
        (if cand.datum.persist = false ∧ 0 ≤ cand.datumIndex then
          (storageCostProduce len cand.channel cand.removedDatum).value else 0)
        else 0) + listedCost len cands channel := by
  unfold listedCost listed
  rw [List.filter_cons]
  by_cases hSame : channel = cand.channel
  · subst hSame
    by_cases hLeaves : cand.datum.persist = false ∧ 0 ≤ cand.datumIndex
    · simp [Leaves, hLeaves, ConsumeCandidate.origin]
    · simp [Leaves, hLeaves]
  · simp [Leaves, hSame, Ne.symm hSame]

variable {cands : List (ConsumeCandidate Par (ListParWithRandom Par))}

theorem sum_listedCost {F : Finset Par}
    (hF : ∀ cand ∈ cands, cand.channel ∈ F) :
    ∑ c ∈ F, listedCost len cands c = leavingCost len cands := by
  induction cands with
  | nil => simp [listedCost, listed, leavingCost]
  | cons cand cands ih =>
    obtain ⟨hHead, hTail⟩ := List.forall_mem_cons.mp hF
    simp only [listedCost_cons, Finset.sum_add_distrib, ih hTail, Finset.sum_ite_eq', hHead, if_true,
      leavingCost_cons]

theorem dataCost_of_removesExactly
    (h : RemovesExactly cands s t) (channel : Par) :
    dataCost len t channel - dataCost len s channel = -listedCost len cands channel := by
  have hCost := congrArg (fun m : Multiset (Datum (ListParWithRandom Par)) =>
    (m.map fun d => (storageCostProduce len channel d.a).value).sum) (h channel)
  simp only [Multiset.map_add, Multiset.sum_add, Multiset.map_coe, Multiset.sum_coe] at hCost
  rw [dataCost, dataCost, listedCost]
  omega

variable (len) in
theorem storageChange_of_removesExactly
    (h : RemovesExactly cands s t)
    (hFrame : ∀ c ∉ cands.map ConsumeCandidate.channel, t.storedData c = s.storedData c)
    (hConts : ∀ cs, t.storedContinuations cs = s.storedContinuations cs) :
    StorageChange len s t (-leavingCost len cands) := by
  refine ⟨(cands.map ConsumeCandidate.channel).toFinset, ∅, fun c hc => ?_, fun cs _ => hConts cs, ?_⟩
  · exact hFrame c (by simpa using hc)
  · rw [Finset.sum_empty, add_zero, Finset.sum_congr rfl fun c _ => dataCost_of_removesExactly h c,
      Finset.sum_neg_distrib, sum_listedCost]
    intro cand hMem
    exact List.mem_toFinset.mpr (List.mem_map_of_mem hMem)

theorem storedData_retire_of_notMem {pc : ProduceCandidate Par BindPattern (ListParWithRandom Par) (TaggedContinuation Par)}
    {op : SpaceOp Par BindPattern} {c : Par}
    (hc : c ∉ pc.dataCandidates.map ConsumeCandidate.channel) :
    (retire pc s op).storedData c = s.storedData c := by
  have hNone : (sortByIndex pc.dataCandidates).filter (Leaves c ·) = [] := by
    rw [List.filter_eq_nil_iff]
    intro cand hMem hLeaves
    have hIn := (List.perm_insertionSort _ pc.dataCandidates).subset hMem
    exact hc (List.mem_map.mpr ⟨cand, hIn, (of_decide_eq_true hLeaves).1⟩)
  rw [storedData_retire, positions, hNone]
  rfl

def removedContinuationCost (len : EncodedLen Par BindPattern)
    (pc : ProduceCandidate Par BindPattern (ListParWithRandom Par) (TaggedContinuation Par)) : Int :=
  if pc.continuation.persist then 0
  else (storageCostConsume len pc.channels pc.continuation.patterns pc.continuation.continuation).value

theorem storageChange_removeContinuation {channels : List Par}
    {wc : WaitingContinuation BindPattern (TaggedContinuation Par)} {index : Int}
    (hMem : (wc, index) ∈ withIndex (s.getContinuations channels).1) (hPersist : wc.persist = false) :
    StorageChange len s (s.removeContinuation channels index)
      (-(storageCostConsume len channels wc.patterns wc.continuation).value) := by
  refine ⟨∅, {channels}, fun c _ => by simp, fun cs hcs => ?_, ?_⟩
  · exact storedContinuations_removeContinuation_of_ne s channels index cs (by simpa using hcs)
  · have hSum := ((perm_removeContinuation hMem hPersist).map fun w =>
      (storageCostConsume len channels w.patterns w.continuation).value).sum_eq
    rw [List.map_cons, List.sum_cons] at hSum
    rw [Finset.sum_singleton, Finset.sum_empty, continuationsCost, continuationsCost]
    omega

end F1r3Node.Accounting
