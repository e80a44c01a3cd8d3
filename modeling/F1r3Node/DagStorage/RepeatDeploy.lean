import F1r3Node.DagStorage.JustificationCoverage
import F1r3Node.Lib.BreadthFirst
import F1r3Node.Lib.LevelSearch

/-! # Repeated deploys

A signature that the carrier index does not know skips the walk over the ancestors. `narrow` is what stands before the
walk: the index in the code, nothing in the exact check.
-/

namespace F1r3Node.DagStorage.RepeatDeploy

open Shared Dag
open Casper (BlockMessage)
open Lib (LevelSearch.discover BreadthFirst.walk)

variable {S : Type}

inductive CasperError where
  | blockNotHeld (hash : Bytes) (context : String)
  | rootNotFound (root : Bytes)
  | kvStoreError (message : String) (hash : Bytes)
  | runtimeError (message : String)
  deriving DecidableEq

inductive InvalidBlock where
  | prematureDeployRetry
  | invalidRepeatDeploy
  deriving DecidableEq

inductive BlockError where
  | undecidable (hash : Bytes)
  | awaitingState (root : Bytes)
  | blockException (error : CasperError)
  | invalid (reason : InvalidBlock)
  deriving DecidableEq

def BlockError.fromValidationError : CasperError → BlockError
  | .blockNotHeld hash _ => .undecidable hash
  | .rootNotFound root => .awaitingState root
  | e => .blockException e

abbrev ValidBlockProcessing := Except BlockError Unit

inductive UnheldParent where
  | surface
  | skipSettled
  deriving DecidableEq

def unheldInScope (parent : Bytes) : UnheldParent → Except CasperError Bool
  | .surface => .error (.blockNotHeld parent "walk_blocks_in_scope")
  | .skipSettled => .ok false

def inScope (dag : BlockDagStorage) (blockNumber : Int) (onUnheld : UnheldParent) (parent : Bytes) :
    Except CasperError Bool :=
  match dag.lookup parent with
  | some metadata => .ok (blockNumber ≤ metadata.blockNumber)
  | none => unheldInScope parent onUnheld

def parentsOf (dag : BlockDagStorage) (hash : Bytes) : List Bytes :=
  ((dag.lookup hash).map (·.parents)).getD []

def walkBlocksInScope (dag : BlockDagStorage) (start : List BlockMetadata) (blockNumber : Int)
    (onUnheld : UnheldParent) (visit : Bytes → Except CasperError Bool) : Option (Except CasperError (Option Bytes)) :=
  let (visited, queue) := LevelSearch.discover ∅ (start.map (·.blockHash))
  BreadthFirst.walk visit (parentsOf dag) (inScope dag blockNumber onUnheld)
    (dag.dagSet.card + start.length) visited queue

def minDeploySigBytes : Nat := 32

def hasAnyDeploySigStrict (blockStore : Bytes → Option (BlockMessage ProcessedDeploy S)) (hash : Bytes)
    (deploySigs : Finset Bytes) : Except CasperError Bool :=
  if deploySigs = ∅ then .ok false
  else
    match blockStore hash with
    | none => .error (.kvStoreError "BlockStore is missing hash" hash)
    | some block =>
      match block.body.deploys.find? (·.sig.length < minDeploySigBytes) with
      | some pd => .error (.kvStoreError s!"Invalid deploy signature length: {pd.sig.length}" hash)
      | none => .ok (block.body.deploys.any (·.sig ∈ deploySigs))

def getParentsMetadata (dag : BlockDagStorage) (parents : List Bytes) : Except CasperError (List BlockMetadata) :=
  parents.mapM fun parent =>
    match dag.lookup parent with
    | some metadata => .ok metadata
    | none => .error (.blockNotHeld parent "get_parents_metadata")

def maxBlockNumberMetadata (blocks : List BlockMetadata) : Int :=
  blocks.foldl (fun acc block => max acc block.blockNumber) (-1)

def earliestBlockNumber (initParents : List BlockMetadata) (expirationThreshold : Int) : Int :=
  maxBlockNumberMetadata initParents + 1 - expirationThreshold

/-- The signatures whose latest disposition in the parents' scope is a rejection, and whether a rejection is settled in
the block's floor. -/
structure FloorContext where
  rejectedSigs : Int → Except CasperError (Finset Bytes)
  retryGateOpen : Int → Bytes → Except CasperError Bool

def exemptOf (ctx : FloorContext) (earliest : Int) (rejected : Finset Bytes) :
    List ProcessedDeploy → Except BlockError (Finset Bytes)
  | [] => .ok ∅
  | pd :: pds =>
    if pd.sig ∉ rejected then exemptOf ctx earliest rejected pds
    else
      match ctx.retryGateOpen earliest pd.sig with
      | .error e => .error (.fromValidationError e)
      | .ok false => .error (.invalid .prematureDeployRetry)
      | .ok true => (exemptOf ctx earliest rejected pds).map (insert pd.sig)

def exempt (floorCtx : Option FloorContext) (earliest : Int) (deploys : List ProcessedDeploy) :
    Except BlockError (Finset Bytes) :=
  match floorCtx with
  | none => .ok ∅
  | some ctx =>
    match ctx.rejectedSigs earliest with
    | .error e => .error (.fromValidationError e)
    | .ok rejected => exemptOf ctx earliest rejected deploys

structure IndexFaults where
  watermark : Bool
  row : Bytes → Bool

/-- Drops the signatures that the index does not know, up to the first probe that fails. -/
def scanSet (faults : IndexFaults) (index : CarrierIndex) : List Bytes → List Bytes
  | [] => []
  | sig :: sigs =>
    if faults.row sig then sig :: sigs
    else if index.provesAbsence sig then scanSet faults index sigs
    else sig :: scanSet faults index sigs

def narrowByIndex (order : HashOrder) (faults : IndexFaults) (index : CarrierIndex) (earliest : Int)
    (deployKeySet : Finset Bytes) : Finset Bytes :=
  if faults.watermark then deployKeySet
  else
    match index.watermark with
    | none => deployKeySet
    | some w =>
      if w ≤ max earliest 0 then (scanSet faults index (order.toList deployKeySet)).toFinset else deployKeySet

def duplicateVerdict (node : NodeState S) (duplicated : Bytes) (deployKeySet : Finset Bytes) :
    Option ValidBlockProcessing :=
  match node.blockStore duplicated with
  | none => none
  | some block =>
    if block.body.deploys.any (·.sig ∈ deployKeySet) then some (.error (.invalid .invalidRepeatDeploy))
    else some (.error (.fromValidationError
      (.runtimeError "InvalidRepeatDeploy duplicate-deploy invariant violated")))

def scanAncestors (node : NodeState S) (initParents : List BlockMetadata) (earliest : Int)
    (deployKeySet : Finset Bytes) : Option ValidBlockProcessing :=
  match walkBlocksInScope node.dag initParents earliest .surface
    fun hash => hasAnyDeploySigStrict node.blockStore hash deployKeySet with
  | none => none
  | some (.error e) => some (.error (.fromValidationError e))
  | some (.ok none) => some (.ok ())
  | some (.ok (some duplicated)) => duplicateVerdict node duplicated deployKeySet

def checkKeys (narrow : Finset Bytes → Finset Bytes) (node : NodeState S) (initParents : List BlockMetadata)
    (earliest : Int) (deployKeySet : Finset Bytes) : Option ValidBlockProcessing :=
  if deployKeySet = ∅ then some (.ok ())
  else if narrow deployKeySet = ∅ then some (.ok ())
  else scanAncestors node initParents earliest (narrow deployKeySet)

def keysOf (deploys : List ProcessedDeploy) (exempted : Finset Bytes) : Finset Bytes :=
  ((deploys.filter (·.sig ∉ exempted)).map (·.sig)).toFinset

/-- `none` stands for a panic: a body that the walk has read is gone. -/
def repeatDeployWith (narrow : Int → Finset Bytes → Finset Bytes) (node : NodeState S)
    (block : BlockMessage ProcessedDeploy S) (expirationThreshold : Int) (floorCtx : Option FloorContext) :
    Option ValidBlockProcessing :=
  if block.body.deploys = [] then some (.ok ())
  else
    match getParentsMetadata node.dag block.header.parentsHashList with
    | .error e => some (.error (.fromValidationError e))
    | .ok initParents =>
      let earliest := earliestBlockNumber initParents expirationThreshold
      match exempt floorCtx earliest block.body.deploys with
      | .error e => some (.error e)
      | .ok exempted => checkKeys (narrow earliest) node initParents earliest (keysOf block.body.deploys exempted)

def repeatDeploy (order : HashOrder) (faults : IndexFaults) (node : NodeState S)
    (block : BlockMessage ProcessedDeploy S) (expirationThreshold : Int) (floorCtx : Option FloorContext) :
    Option ValidBlockProcessing :=
  repeatDeployWith (narrowByIndex order faults node.dag.carrierIndex) node block expirationThreshold floorCtx

def exactRepeatDeploy (node : NodeState S) (block : BlockMessage ProcessedDeploy S) (expirationThreshold : Int)
    (floorCtx : Option FloorContext) : Option ValidBlockProcessing :=
  repeatDeployWith (fun _ deployKeySet => deployKeySet) node block expirationThreshold floorCtx

def IndexFaults.none : IndexFaults := ⟨false, fun _ => false⟩

section narrow

variable {faults : IndexFaults} {index : CarrierIndex} {order : HashOrder} {earliest : Int} {keys : Finset Bytes}

variable {sigs : List Bytes}

theorem scanSet_subset : scanSet faults index sigs ⊆ sigs := by
  induction sigs with
  | nil => exact List.Subset.refl []
  | cons sig sigs ih =>
    rw [scanSet]
    split
    · exact List.Subset.refl _
    · split
      · exact List.subset_cons_of_subset sig ih
      · exact List.cons_subset_cons sig ih

theorem provesAbsence_of_dropped {sig : Bytes} (hMem : sig ∈ sigs)
    (hDropped : sig ∉ scanSet faults index sigs) : index.provesAbsence sig = true := by
  induction sigs with
  | nil => cases hMem
  | cons head sigs ih =>
    rw [scanSet] at hDropped
    split at hDropped
    · exact absurd hMem hDropped
    · split at hDropped
      · next hAbsent =>
        obtain rfl | hTail := List.mem_cons.mp hMem
        · exact hAbsent
        · exact ih hTail hDropped
      · obtain ⟨hNe, hNot⟩ := not_or.mp (mt List.mem_cons.mpr hDropped)
        exact ih ((List.mem_cons.mp hMem).resolve_left hNe) hNot

theorem narrowByIndex_subset : narrowByIndex order faults index earliest keys ⊆ keys := by
  rw [narrowByIndex]
  split
  · exact Finset.Subset.refl keys
  · split
    · exact Finset.Subset.refl keys
    · split
      · intro sig hSig
        exact (order.mem_toList keys sig).mp (scanSet_subset (List.mem_toFinset.mp hSig))
      · exact Finset.Subset.refl keys

theorem of_dropped {sig : Bytes} (hMem : sig ∈ keys) (hDropped : sig ∉ narrowByIndex order faults index earliest keys) :
    index.provesAbsence sig = true ∧ ∃ w, index.watermark = some w ∧ w ≤ max earliest 0 := by
  rw [narrowByIndex] at hDropped
  split at hDropped
  · exact absurd hMem hDropped
  · split at hDropped
    · exact absurd hMem hDropped
    · next w hWatermark =>
      split at hDropped
      · next hGate =>
        have hNot : sig ∉ scanSet faults index (order.toList keys) := fun h => hDropped (List.mem_toFinset.mpr h)
        exact ⟨provesAbsence_of_dropped ((order.mem_toList keys sig).mpr hMem) hNot, w, hWatermark, hGate⟩
      · exact absurd hMem hDropped

theorem scanSet_eq_nil (h : ∀ sig ∈ sigs, index.provesAbsence sig = true) :
    scanSet .none index sigs = [] := by
  induction sigs with
  | nil => rfl
  | cons sig sigs ih =>
    obtain ⟨hHead, hTail⟩ := List.forall_mem_cons.mp h
    have hRead : ¬ IndexFaults.none.row sig = true := Bool.false_ne_true
    rw [scanSet, if_neg hRead, if_pos hHead, ih hTail]

theorem repeatDeploy_of_absent {node : NodeState S} {block : BlockMessage ProcessedDeploy S} {threshold w : Int}
    {initParents : List BlockMetadata}
    (hParents : getParentsMetadata node.dag block.header.parentsHashList = .ok initParents)
    (hWatermark : node.dag.carrierIndex.watermark = some w)
    (hGate : w ≤ max (earliestBlockNumber initParents threshold) 0)
    (hAbsent : ∀ pd ∈ block.body.deploys, node.dag.carrierIndex.provesAbsence pd.sig = true) :
    repeatDeploy order .none node block threshold none = some (.ok ()) := by
  have hKeys : ∀ sig ∈ order.toList (keysOf block.body.deploys ∅), node.dag.carrierIndex.provesAbsence sig = true := by
    intro sig hSig
    obtain ⟨pd, hpd, rfl⟩ := List.mem_map.mp (List.mem_toFinset.mp ((order.mem_toList _ sig).mp hSig))
    exact hAbsent pd (List.mem_of_mem_filter hpd)
  have hNarrow : narrowByIndex order .none node.dag.carrierIndex (earliestBlockNumber initParents threshold)
      (keysOf block.body.deploys ∅) = ∅ := by
    have hRead : ¬ IndexFaults.none.watermark = true := Bool.false_ne_true
    rw [narrowByIndex, if_neg hRead, hWatermark]
    dsimp only
    rw [if_pos hGate, scanSet_eq_nil hKeys]
    rfl
  rw [repeatDeploy, repeatDeployWith]
  split
  · rfl
  · rw [hParents]
    dsimp only [exempt]
    rw [checkKeys, if_pos hNarrow]
    split <;> rfl

end narrow

section scan

variable {node : NodeState S} {initParents : List BlockMetadata} {earliest : Int}

def InScan (dag : BlockDagStorage) (initParents : List BlockMetadata) (earliest : Int) : Bytes → Prop :=
  Lib.BreadthFirst.InWalk (parentsOf dag) (inScope dag earliest .surface) (initParents.map (·.blockHash))

/-- The body of the block can be read: it is there, and its signatures have a signature's length. -/
def Readable (blockStore : Bytes → Option (BlockMessage ProcessedDeploy S)) (hash : Bytes) : Prop :=
  ∃ block, blockStore hash = some block ∧ ∀ pd ∈ block.body.deploys, minDeploySigBytes ≤ pd.sig.length

def Catches (blockStore : Bytes → Option (BlockMessage ProcessedDeploy S)) (keys kept : Finset Bytes) (hash : Bytes) :
    Prop :=
  ∀ block, blockStore hash = some block → ∀ pd ∈ block.body.deploys, pd.sig ∈ keys → pd.sig ∈ kept

variable {keys kept : Finset Bytes} {hash : Bytes}

theorem any_sig_congr (hSub : kept ⊆ keys) (hCatches : Catches node.blockStore keys kept hash)
    {block : BlockMessage ProcessedDeploy S} (hBlock : node.blockStore hash = some block) :
    block.body.deploys.any (·.sig ∈ kept) = block.body.deploys.any (·.sig ∈ keys) := by
  rw [Bool.eq_iff_iff, List.any_eq_true, List.any_eq_true]
  constructor
  · rintro ⟨pd, hpd, hMem⟩
    exact ⟨pd, hpd, decide_eq_true (hSub (of_decide_eq_true hMem))⟩
  · rintro ⟨pd, hpd, hMem⟩
    exact ⟨pd, hpd, decide_eq_true (hCatches block hBlock pd hpd (of_decide_eq_true hMem))⟩

theorem hasAnyDeploySigStrict_congr (hSub : kept ⊆ keys) (hNe : kept ≠ ∅)
    (hCatches : Catches node.blockStore keys kept hash) :
    hasAnyDeploySigStrict node.blockStore hash kept = hasAnyDeploySigStrict node.blockStore hash keys := by
  have hKeys : keys ≠ ∅ := fun hEmpty => hNe (Finset.subset_empty.mp (hEmpty ▸ hSub))
  rw [hasAnyDeploySigStrict, hasAnyDeploySigStrict, if_neg hNe, if_neg hKeys]
  cases hBlock : node.blockStore hash with
  | none => rfl
  | some block =>
    dsimp only
    rw [any_sig_congr hSub hCatches hBlock]

theorem hasAnyDeploySigStrict_of_none (hReadable : Readable node.blockStore hash)
    (hCatches : Catches node.blockStore keys ∅ hash) :
    hasAnyDeploySigStrict node.blockStore hash keys = .ok false := by
  obtain ⟨block, hBlock, hLong⟩ := hReadable
  have hShort : block.body.deploys.find? (·.sig.length < minDeploySigBytes) = none := by
    rw [List.find?_eq_none]
    intro pd hpd
    simpa using hLong pd hpd
  have hAny : block.body.deploys.any (·.sig ∈ keys) = false := by
    rw [← any_sig_congr (Finset.empty_subset keys) hCatches hBlock]
    simp
  rw [hasAnyDeploySigStrict]
  split
  · rfl
  · rw [hBlock]
    dsimp only
    rw [hShort, hAny]

variable {dag : BlockDagStorage}

theorem inScan_of_queued :
    ∀ hash ∈ (LevelSearch.discover ∅ (initParents.map (·.blockHash))).2, InScan dag initParents earliest hash := by
  intro hash hMem
  exact .start (Lib.LevelSearch.mem_discover_found.mp hMem).1

variable {visit : Bytes → Except CasperError Bool}

theorem walkBlocksInScope_congr {visit' : Bytes → Except CasperError Bool}
    (h : ∀ hash, InScan dag initParents earliest hash → visit hash = visit' hash) :
    walkBlocksInScope dag initParents earliest .surface visit =
      walkBlocksInScope dag initParents earliest .surface visit' :=
  Lib.BreadthFirst.walk_congr h inScan_of_queued

theorem walkBlocksInScope_ne_none :
    walkBlocksInScope dag initParents earliest .surface visit ≠ none := by
  have hBound : ∀ hash, inScope dag earliest .surface hash = .ok true →
      hash ∈ dag.dagSet ∪ (initParents.map (·.blockHash)).toFinset := by
    intro hash hScope
    rw [inScope] at hScope
    cases hLookup : dag.lookup hash with
    | none =>
      rw [hLookup] at hScope
      cases hScope
    | some m => exact Finset.mem_union_left _ (lookup_eq_some.mp hLookup).1
  refine Lib.BreadthFirst.walk_ne_none hBound (fun hash hSeen => ?_) ?_
  · obtain hNot | hStart := Lib.LevelSearch.mem_discover_seen.mp hSeen
    · exact absurd hNot (Finset.notMem_empty hash)
    · exact Finset.mem_union_right _ (List.mem_toFinset.mpr hStart)
  · have hUnion := Finset.card_union_le dag.dagSet (initParents.map (·.blockHash)).toFinset
    have hStarts := List.toFinset_card_le (initParents.map (·.blockHash))
    have hCount := Lib.LevelSearch.length_discover (∅ : Finset Bytes) (initParents.map (·.blockHash))
    rw [List.length_map] at hStarts
    rw [Finset.card_empty] at hCount
    omega

theorem walkBlocksInScope_eq_none
    (hVisit : ∀ hash, InScan dag initParents earliest hash → visit hash = .ok false)
    (hKnown : ∀ hash, InScan dag initParents earliest hash → ∀ parent ∈ parentsOf dag hash, dag.lookup parent ≠ none) :
    walkBlocksInScope dag initParents earliest .surface visit = some (.ok none) := by
  refine Lib.BreadthFirst.walk_eq_ok_none hVisit (fun hash hScan parent hParent => ?_) inScan_of_queued
    walkBlocksInScope_ne_none
  obtain ⟨m, hLookup⟩ := Option.ne_none_iff_exists'.mp (hKnown hash hScan parent hParent)
  exact ⟨earliest ≤ m.blockNumber, by rw [inScope, hLookup]⟩

theorem scanAncestors_congr (hSub : kept ⊆ keys) (hNe : kept ≠ ∅)
    (hCatches : ∀ hash, InScan node.dag initParents earliest hash → Catches node.blockStore keys kept hash) :
    scanAncestors node initParents earliest kept = scanAncestors node initParents earliest keys := by
  rw [scanAncestors, scanAncestors,
    walkBlocksInScope_congr fun hash hScan => hasAnyDeploySigStrict_congr hSub hNe (hCatches hash hScan)]
  cases hWalk : walkBlocksInScope node.dag initParents earliest .surface
    fun hash => hasAnyDeploySigStrict node.blockStore hash keys with
  | none => rfl
  | some result =>
    cases result with
    | error e => rfl
    | ok found =>
      cases found with
      | none => rfl
      | some duplicated =>
        have hScan : InScan node.dag initParents earliest duplicated :=
          Lib.BreadthFirst.inWalk_of_walk inScan_of_queued hWalk
        dsimp only
        rw [duplicateVerdict, duplicateVerdict]
        cases hBlock : node.blockStore duplicated with
        | none => rfl
        | some block =>
          dsimp only
          rw [any_sig_congr hSub (hCatches duplicated hScan) hBlock]

theorem checkKeys_eq {narrow : Finset Bytes → Finset Bytes} (hSub : narrow keys ⊆ keys)
    (hCatches : ∀ hash, InScan node.dag initParents earliest hash → Catches node.blockStore keys (narrow keys) hash)
    (hReadable : ∀ hash, InScan node.dag initParents earliest hash → Readable node.blockStore hash)
    (hKnown : ∀ hash, InScan node.dag initParents earliest hash → ∀ parent ∈ parentsOf node.dag hash,
      node.dag.lookup parent ≠ none) :
    checkKeys narrow node initParents earliest keys = checkKeys id node initParents earliest keys := by
  rw [checkKeys, checkKeys, id_eq]
  split
  · rfl
  · split
    · next hEmpty =>
      -- no walk at all: the exact one must find nothing
      rw [hEmpty] at hCatches
      rw [scanAncestors, walkBlocksInScope_eq_none
        (fun hash hScan => hasAnyDeploySigStrict_of_none (hReadable hash hScan) (hCatches hash hScan)) hKnown]
    · next hNe => exact scanAncestors_congr hSub hNe hCatches

end scan

end F1r3Node.DagStorage.RepeatDeploy
