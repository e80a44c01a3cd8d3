import F1r3Node.Finality.CliqueOracle
import F1r3Node.Finality.StateContainment

/-! # The finalized frontier of a parent

The frontier is the highest certified block on the main chain of a parent, or the chain's root, found from the top or
from a cached frontier upwards. The memo of verdicts is left out.
-/

namespace F1r3Node.Finality

open Shared Lib Dag CliqueOracle

def CasperError.ofKvStoreError : KvStoreError → CasperError
  | .missingBlock hash context => .blockNotHeld hash context
  | error => .kvStoreError error

variable (dag : KeyValueDagRepresentation) (latestMessages : LatestMessages) (ftt : FtThreshold)

def heldNumber (hash : Bytes) : Except CasperError Int := do
  let metadata ← heldMeta dag hash
  .ok metadata.blockNumber

def finalized (target : Bytes) : Except CasperError Bool :=
  (ftWitnessedExact dag latestMessages target ftt false).mapError .ofKvStoreError

def committee (block : Bytes) : Except CasperError WeightMap :=
  (getCorrespondingWeightMap dag block).mapError .ofKvStoreError

def sameCommittee (pivotCommittee : WeightMap) : List Bytes → Except CasperError Bool
  | [] => .ok true
  | block :: rest => do
    let found ← committee dag block
    if found = pivotCommittee then sameCommittee pivotCommittee rest else .ok false

def upWalk : Floor → List Bytes → Except CasperError Floor
  | best, [] => .ok best
  | best, candidate :: rest => do
    let certified ← finalized dag latestMessages ftt candidate
    if certified then
      let number ← heldNumber dag candidate
      upWalk ⟨candidate, number⟩ rest
    else .ok best

def walkFromPivot (pivotHash : Bytes) (pivotNumber : Int) (spine : List Bytes) :
    Except CasperError (Option Floor) := do
  let pivotCommittee ← committee dag pivotHash
  let constant ← sameCommittee dag pivotCommittee spine
  let pivotFinalized ← if constant then finalized dag latestMessages ftt pivotHash else .ok false
  if pivotFinalized then
    let frontier ← upWalk dag latestMessages ftt ⟨pivotHash, pivotNumber⟩ spine.dropLast.reverse
    .ok (some frontier)
  else .ok none

/-- The answer is `none` where a guard trips: the pivot is off the spine, the committee changed on the way, or the
pivot is not certified over this snapshot. -/
def incrementalFrontier (parent pivotHash : Bytes) : Except CasperError (Option Floor) := do
  let pivotNumber ← heldNumber dag pivotHash
  let chain ← (dag.mainParentChain parent pivotNumber).mapError .ofKvStoreError
  if (parent :: chain).getLast? = some pivotHash then
    walkFromPivot dag latestMessages ftt pivotHash pivotNumber (parent :: chain)
  else .ok none

def coldWalk : Nat → Bytes → Except CasperError Floor
  | 0, _ => .error (.other "out of fuel" [])
  | fuel + 1, current => do
    let certified ← finalized dag latestMessages ftt current
    if certified then
      let number ← heldNumber dag current
      .ok ⟨current, number⟩
    else
      match dag.mainParent current with
      | some mainParent => coldWalk fuel mainParent
      | none => do
        let number ← heldNumber dag current
        .ok ⟨current, number⟩

def coldParentFrontier (parent : Bytes) : Except CasperError Floor :=
  coldWalk dag latestMessages ftt (dag.records.length + 1) parent

def parentFrontier (frontierCache : Bytes → Option Bytes) (parent : Bytes) : Except CasperError Floor :=
  match frontierCache parent with
  | none => coldParentFrontier dag latestMessages ftt parent
  | some pivotHash => do
    match ← incrementalFrontier dag latestMessages ftt parent pivotHash with
    | some frontier => .ok frontier
    | none => coldParentFrontier dag latestMessages ftt parent

structure IsFrontier (parent : Bytes) (frontier : Floor) : Prop where
  held : ∃ m, dag.lookup frontier.hash = some m ∧ m.blockNumber = frontier.blockNumber
  onSpine : dag.OnSpine frontier.hash parent
  certified : Certified dag latestMessages ftt frontier.hash ∨ dag.mainParent frontier.hash = none
  above : ∀ hash, dag.OnSpine hash parent → dag.OnSpine frontier.hash hash → hash ≠ frontier.hash →
    ¬ Certified dag latestMessages ftt hash

variable {dag latestMessages ftt}

variable {parent : Bytes} {f : Floor}

theorem IsFrontier.hash_eq_of_onSpine {g : Floor} (hf : IsFrontier dag latestMessages ftt parent f)
    (hg : IsFrontier dag latestMessages ftt parent g) (hOn : dag.OnSpine f.hash g.hash) : g.hash = f.hash := by
  by_contra hNe
  have hRoot := hg.certified.resolve_left (hf.above g.hash hg.onSpine hOn hNe)
  exact hNe ((KeyValueDagRepresentation.onSpine_iff_of_root hRoot).mp hOn).symm

theorem IsFrontier.unique {g : Floor} (hf : IsFrontier dag latestMessages ftt parent f)
    (hg : IsFrontier dag latestMessages ftt parent g) : f = g := by
  have hHash : g.hash = f.hash := by
    rcases hf.onSpine.total hg.onSpine with hOn | hOn
    · exact hf.hash_eq_of_onSpine hg hOn
    · exact (hg.hash_eq_of_onSpine hf hOn).symm
  obtain ⟨m, hm, hNumber⟩ := hf.held
  obtain ⟨m', hm', hNumber'⟩ := hg.held
  rw [hHash] at hm'
  obtain rfl := Option.some.inj (hm.symm.trans hm')
  obtain ⟨fHash, fNumber⟩ := f
  obtain ⟨gHash, gNumber⟩ := g
  dsimp only at hHash hNumber hNumber'
  rw [hHash, ← hNumber, ← hNumber']

variable {m : BlockMetadata}

theorem heldNumber_eq {hash : Bytes} (hm : dag.lookup hash = some m) :
    heldNumber dag hash = .ok m.blockNumber := by
  rw [heldNumber, heldMeta_eq hm]
  rfl

theorem committee_eq {hash : Bytes} (hm : dag.lookup hash = some m) :
    committee dag hash = .ok m.weightMap := by
  rw [committee, getCorrespondingWeightMap, KeyValueDagRepresentation.lookupUnsafe_eq_ok.mpr hm]
  rfl

theorem finalized_returns (hDag : Complete dag) {target : Bytes} (hm : dag.lookup target = some m) :
    Returns (finalized dag latestMessages ftt target)
      fun certified => certified = true ↔ Certified dag latestMessages ftt target := by
  obtain ⟨result, hResult⟩ := hDag.exists_exactResult hm
  rw [finalized, ftWitnessedExact, hResult]
  refine ⟨result.decision, rfl, fun hDecision => ⟨result, hResult, hDecision⟩, ?_⟩
  rintro ⟨result', hResult', hDecision⟩
  obtain rfl := Except.ok.inj (hResult.symm.trans hResult')
  exact hDecision

theorem coldWalk_returns (hDag : Complete dag) {fuel : Nat} {current : Bytes}
    (hm : dag.lookup current = some m) (hFuel : dag.countBelow m.blockNumber < fuel) :
    Returns (coldWalk dag latestMessages ftt fuel current) (IsFrontier dag latestMessages ftt current) := by
  induction fuel generalizing current m with
  | zero => omega
  | succ fuel ih =>
    have hTop : ∀ hash, dag.OnSpine hash current → dag.OnSpine current hash → hash ≠ current → False :=
      fun hash hBelow hAbove hNe => hNe (hAbove.antisymm hBelow hm).symm
    rw [coldWalk]
    refine (finalized_returns hDag hm).bind fun certified hCertified => ?_
    cases certified with
    | true =>
      rw [if_pos rfl, heldNumber_eq hm]
      exact ⟨_, rfl, ⟨m, hm, rfl⟩, .refl _, .inl (hCertified.mp rfl), fun hash h h' hNe => (hTop hash h h' hNe).elim⟩
    | false =>
      have hNot : ¬ Certified dag latestMessages ftt current := fun h => Bool.false_ne_true (hCertified.mpr h)
      rw [if_neg Bool.false_ne_true]
      cases hParent : dag.mainParent current with
      | none =>
        dsimp only
        rw [heldNumber_eq hm]
        exact ⟨_, rfl, ⟨m, hm, rfl⟩, .refl _, .inr hParent, fun hash h h' hNe => (hTop hash h h' hNe).elim⟩
      | some mainParent =>
        rw [KeyValueDagRepresentation.mainParent_eq hm] at hParent
        obtain ⟨p, hp, hLt⟩ := hDag.parents.mainParent hm hParent
        rw [← KeyValueDagRepresentation.mainParent_eq hm] at hParent
        have hCount := KeyValueDagRepresentation.countBelow_lt hp hLt
        refine (ih hp (by omega)).imp fun f hf => ⟨hf.held, hf.onSpine.trans (.single hParent), hf.certified, ?_⟩
        intro hash hOn hAbove hNe
        rcases (KeyValueDagRepresentation.onSpine_iff_of_mainParent hParent).mp hOn with rfl | hOn'
        · exact hNot
        · exact hf.above hash hOn' hAbove hNe

theorem coldParentFrontier_returns (hDag : Complete dag) (hm : dag.lookup parent = some m) :
    Returns (coldParentFrontier dag latestMessages ftt parent) (IsFrontier dag latestMessages ftt parent) :=
  coldWalk_returns hDag hm (Nat.lt_succ_of_le (KeyValueDagRepresentation.countBelow_le _))

theorem sameCommittee_returns {weightMap : WeightMap} {blocks : List Bytes}
    (hHeld : ∀ block ∈ blocks, ∃ m, dag.lookup block = some m) :
    Returns (sameCommittee dag weightMap blocks) fun same => same = true →
      ∀ block ∈ blocks, ∀ m, dag.lookup block = some m → m.weightMap = weightMap := by
  induction blocks with
  | nil => exact ⟨true, rfl, by simp⟩
  | cons block blocks ih =>
    obtain ⟨⟨m, hm⟩, hRest⟩ := List.forall_mem_cons.mp hHeld
    rw [sameCommittee, committee_eq hm]
    change Returns (if m.weightMap = weightMap then _ else _) _
    split
    case isFalse => exact ⟨false, rfl, fun h => absurd h Bool.false_ne_true⟩
    case isTrue hSame =>
      refine (ih hRest).imp fun same hBlocks hTrue => List.forall_mem_cons.mpr ⟨fun m' hm' => ?_, hBlocks hTrue⟩
      rw [← Option.some.inj (hm.symm.trans hm'), hSame]

theorem upWalk_returns (hDag : Complete dag) {best : Floor} {candidates : List Bytes}
    (hBest : ∃ m, dag.lookup best.hash = some m ∧ m.blockNumber = best.blockNumber)
    (hCertified : Certified dag latestMessages ftt best.hash)
    (hChain : (best.hash :: candidates).IsChain fun x y => dag.mainParent y = some x) :
    Returns (upWalk dag latestMessages ftt best candidates) fun f =>
      (∃ m, dag.lookup f.hash = some m ∧ m.blockNumber = f.blockNumber) ∧ Certified dag latestMessages ftt f.hash ∧
      dag.OnSpine best.hash f.hash ∧ f.hash ∈ best.hash :: candidates ∧
      ((best.hash :: candidates).getLast? = some f.hash ∨
        ∃ next ∈ candidates, dag.mainParent next = some f.hash ∧ ¬ Certified dag latestMessages ftt next) := by
  induction candidates generalizing best with
  | nil => exact ⟨best, rfl, hBest, hCertified, .refl _, List.mem_cons_self, .inl rfl⟩
  | cons candidate candidates ih =>
    obtain ⟨hStep, hRest⟩ := List.isChain_cons_cons.mp hChain
    obtain ⟨m, hm, -⟩ := KeyValueDagRepresentation.mainParent_eq_some.mp hStep
    rw [upWalk]
    refine (finalized_returns hDag hm).bind fun certified hFinalized => ?_
    cases certified with
    | false =>
      rw [if_neg Bool.false_ne_true]
      refine ⟨best, rfl, hBest, hCertified, .refl _, List.mem_cons_self, .inr ⟨candidate, List.mem_cons_self, hStep, ?_⟩⟩
      exact fun h => Bool.false_ne_true (hFinalized.mpr h)
    | true =>
      rw [if_pos rfl, heldNumber_eq hm]
      refine (@ih ⟨candidate, m.blockNumber⟩ ⟨m, hm, rfl⟩ (hFinalized.mp rfl) hRest).imp
        fun f ⟨hHeld, hf, hOn, hMem, hEnd⟩ => ⟨hHeld, hf, .trans (.single hStep) hOn, List.mem_cons_of_mem _ hMem, ?_⟩
      rw [List.getLast?_cons_cons]
      exact hEnd.imp id fun ⟨next, hNext, h⟩ => ⟨next, List.mem_cons_of_mem candidate hNext, h⟩

variable {pivot : Bytes}

theorem walkFromPivot_returns (hDag : Complete dag) {chain : List Bytes} {mParent : BlockMetadata}
    (hParent : dag.lookup parent = some mParent) (hm : dag.lookup pivot = some m)
    (hChain : (parent :: chain).IsChain fun x y => dag.mainParent x = some y)
    (hLast : (parent :: chain).getLast? = some pivot) :
    Returns (walkFromPivot dag latestMessages ftt pivot m.blockNumber (parent :: chain))
      fun result => ∀ f, result = some f → IsFrontier dag latestMessages ftt parent f := by
  have hSpine := KeyValueDagRepresentation.onSpine_of_mem_chain hChain
  have hHeld : ∀ block ∈ parent :: chain, ∃ m, dag.lookup block = some m := fun block hBlock =>
    hDag.parents.lookup_of_onSpine (hSpine block hBlock) hParent
  rw [walkFromPivot, committee_eq hm]
  refine (sameCommittee_returns hHeld).bind fun constant hConstant => ?_
  cases constant with
  | false => exact ⟨none, rfl, by simp⟩
  | true =>
    have hCommittee := hConstant rfl
    rw [if_pos rfl]
    refine (finalized_returns hDag hm).bind fun certified hCertified => ?_
    cases certified with
    | false => exact ⟨none, rfl, by simp⟩
    | true =>
      have hReverse : pivot :: (parent :: chain).dropLast.reverse = (parent :: chain).reverse := by
        rw [← List.reverse_concat, List.dropLast_append_getLast? pivot hLast]
      have hUp : (pivot :: (parent :: chain).dropLast.reverse).IsChain fun x y => dag.mainParent y = some x := by
        rw [hReverse, List.isChain_reverse]
        exact hChain
      dsimp only
      rw [if_pos rfl]
      refine (@upWalk_returns _ _ _ hDag ⟨pivot, m.blockNumber⟩ _ ⟨m, hm, rfl⟩ (hCertified.mp rfl) hUp).bind
        fun f ⟨hf, hCert, hAbovePivot, hMem, hEnd⟩ => ⟨some f, rfl, ?_⟩
      rintro _ ⟨rfl⟩
      dsimp only at hAbovePivot hMem hEnd
      rw [hReverse] at hMem hEnd
      rw [List.getLast?_reverse, List.head?_cons, Option.some.injEq] at hEnd
      have hOn := hSpine f.hash (List.mem_reverse.mp hMem)
      obtain ⟨mf, hmf, hNumber⟩ := hf
      refine ⟨⟨mf, hmf, hNumber⟩, hOn, .inl hCert, fun hash hBelow hAbove hNe hCertHash => ?_⟩
      rcases hEnd with rfl | ⟨next, hNext, hStep, hNot⟩
      · exact hNe (hBelow.antisymm hAbove (hAbove.lookup hmf).choose_spec)
      · -- the walk stopped below `next`, which is on the spine of every block above the frontier
        have hNextMem : next ∈ parent :: chain := List.mem_of_mem_dropLast (List.mem_reverse.mp hNext)
        rcases hBelow.total (hSpine next hNextMem) with hUnder | hOver
        · rcases (KeyValueDagRepresentation.onSpine_iff_of_mainParent hStep).mp hUnder with rfl | hUnder'
          · exact hNot hCertHash
          · exact hNe (hUnder'.antisymm hAbove (hAbove.lookup hmf).choose_spec)
        · have hHashMem := KeyValueDagRepresentation.mem_chain_of_onSpine hm hLast hChain hBelow
            (hAbovePivot.trans hAbove)
          obtain ⟨mHash, hmHash⟩ := hHeld hash hHashMem
          obtain ⟨mNext, hmNext⟩ := hHeld next hNextMem
          refine hNot (hDag.certified_of_onSpine hmHash hmNext ?_ hOver hCertHash)
          rw [hCommittee next hNextMem mNext hmNext, hCommittee hash hHashMem mHash hmHash]

theorem incrementalFrontier_returns (hDag : Complete dag) {mParent : BlockMetadata}
    (hParent : dag.lookup parent = some mParent) (hm : dag.lookup pivot = some m) :
    Returns (incrementalFrontier dag latestMessages ftt parent pivot)
      fun result => ∀ f, result = some f → IsFrontier dag latestMessages ftt parent f := by
  obtain ⟨chain, hEq, hChain⟩ := @KeyValueDagRepresentation.FullyHeld.mainParentChain_returns dag parent
    mParent hDag.parents m.blockNumber hParent
  rw [incrementalFrontier, heldNumber_eq hm]
  change Returns ((dag.mainParentChain parent m.blockNumber).mapError CasperError.ofKvStoreError >>= _) _
  rw [hEq]
  change Returns (if (parent :: chain).getLast? = some pivot then _ else _) _
  split
  case isTrue hLast => exact walkFromPivot_returns hDag hParent hm hChain hLast
  case isFalse => exact ⟨none, rfl, by simp⟩

theorem incrementalFrontier_of_unheld (hPivot : dag.lookup pivot = none) :
    incrementalFrontier dag latestMessages ftt parent pivot = .error (.blockNotHeld pivot "floor held_meta") := by
  rw [incrementalFrontier, heldNumber, heldMeta, hPivot]
  rfl

theorem incrementalFrontier_eq_some (hDag : Complete dag)
    (hm : dag.lookup parent = some m) (h : incrementalFrontier dag latestMessages ftt parent pivot = .ok (some f)) :
    coldParentFrontier dag latestMessages ftt parent = .ok f := by
  obtain ⟨cold, hCold, hFrontier⟩ := @coldParentFrontier_returns dag latestMessages ftt parent m hDag hm
  cases hPivot : dag.lookup pivot with
  | none =>
    rw [incrementalFrontier_of_unheld hPivot] at h
    cases h
  | some mp =>
    obtain ⟨result, hResult, hAll⟩ := @incrementalFrontier_returns dag latestMessages ftt parent mp pivot hDag m hm hPivot
    rw [hCold, (hAll f (Except.ok.inj (hResult.symm.trans h))).unique hFrontier]

theorem parentFrontier_of_held (hDag : Complete dag)
    (hm : dag.lookup parent = some m) {frontierCache : Bytes → Option Bytes}
    (hCache : ∀ pivot, frontierCache parent = some pivot → ∃ mp, dag.lookup pivot = some mp) :
    parentFrontier dag latestMessages ftt frontierCache parent = coldParentFrontier dag latestMessages ftt parent := by
  rw [parentFrontier]
  cases hCached : frontierCache parent with
  | none => rfl
  | some pivot =>
    obtain ⟨mp, hPivot⟩ := hCache pivot hCached
    obtain ⟨result, hResult, -⟩ := @incrementalFrontier_returns dag latestMessages ftt parent mp pivot hDag m hm hPivot
    dsimp only
    rw [hResult]
    cases result with
    | none => rfl
    | some f =>
      rw [incrementalFrontier_eq_some hDag hm hResult]
      rfl

end F1r3Node.Finality
