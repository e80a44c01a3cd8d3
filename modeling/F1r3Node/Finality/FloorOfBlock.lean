import F1r3Node.Finality.Frontier

/-! # The finalized floor of a block

The floor of a block is the highest sound candidate among the floors of its parents and the frontiers of these over
the block's own justifications.
-/

namespace F1r3Node.Finality

open Shared Lib Dag CliqueOracle

def isHigher (a b : Floor) : Bool :=
  b.blockNumber < a.blockNumber ∨ a.blockNumber = b.blockNumber ∧ ¬ a.hash < b.hash

section derivation

variable (dag : KeyValueDagRepresentation) (blockStore : KeyValueBlockStore)

def reMerges (cand other : Floor) (parent : Bytes) : Except CasperError Bool := do
  let otherPast ← (dag.isDagAncestor other.hash parent).mapError .ofKvStoreError
  if otherPast then (dag.isDagAncestor cand.hash parent).mapError .ofKvStoreError else .ok false

def isPureCut (cand other : Floor) : Except CasperError Bool := do
  match ← stateLineageMeet dag cand.hash other.hash with
  | .disconnected => .ok false
  | .meet meet => do
    let introduced ← segmentIntroducedSigs dag blockStore cand.hash meet
    .ok introduced.isEmpty

def soundWith (parents : List Bytes) (cand other : Floor) : Except CasperError Bool :=
  if other.hash = cand.hash then .ok true
  else do
    let contained ← stateContains dag blockStore cand other
    if contained then .ok true
    else do
      let past ← (dag.isDagAncestor other.hash cand.hash).mapError .ofKvStoreError
      if past then .ok false
      else do
        let reMerged ← parents.anyM (reMerges dag cand other)
        if reMerged then isPureCut dag blockStore cand other else .ok false

def firstSound (parents : List Bytes) (inherited : List Floor) : List Floor → Except CasperError (Option Floor)
  | [] => .ok none
  | cand :: rest => do
    let sound ← inherited.allM (soundWith dag blockStore parents cand)
    if sound then .ok (some cand) else firstSound parents inherited rest

variable (ftt : FtThreshold)

def deriveFloor (frontierCache : Bytes → Option Bytes) (parents : List Bytes) (latestMessages : LatestMessages)
    (inherited : List Floor) : Except CasperError (Floor × Floor) :=
  match parents with
  | [] =>
    .error (.other "finalized_floor requires a non-empty parent set; genesis pre-state comes from config" [])
  | mainParent :: others => do
    let mainParentFrontier ← parentFrontier dag latestMessages ftt frontierCache mainParent
    let frontiers ← others.mapM (parentFrontier dag latestMessages ftt frontierCache)
    let candidates := inherited ++ mainParentFrontier :: frontiers
    match ← firstSound dag blockStore parents inherited (candidates.insertionSort fun a b => isHigher a b) with
    | none => .error (.incompatibleFinalizedFork parents candidates)
    | some floor => .ok (floor, mainParentFrontier)

def snapshot (justifications : List Casper.Justification) : LatestMessages :=
  justifications.foldl (fun latest j => latest.insert j.validator j.latestBlockHash) ∅

structure FloorCaches where
  floors : Bytes → Option Bytes
  frontiers : Bytes → Option Bytes

namespace FloorCaches

def empty : FloorCaches := ⟨fun _ => none, fun _ => none⟩

def putFloor (caches : FloorCaches) (block floor : Bytes) : FloorCaches :=
  { caches with floors := fun hash => if hash = block then some floor else caches.floors hash }

def putFrontier (caches : FloorCaches) (block frontier : Bytes) : FloorCaches :=
  { caches with frontiers := fun hash => if hash = block then some frontier else caches.frontiers hash }

end FloorCaches

def cachedFloor (caches : FloorCaches) (block : Bytes) : Except CasperError Floor :=
  match caches.floors block with
  | none => .error (.other "floor must be cached" [block])
  | some hash => do
    let number ← heldNumber dag hash
    .ok ⟨hash, number⟩

def floorLoop : Nat → FloorCaches → List Bytes → Except CasperError FloorCaches
  | _, caches, [] => .ok caches
  | 0, _, _ :: _ => .error (.other "out of fuel" [])
  | fuel + 1, caches, current :: below =>
    if (caches.floors current).isSome then floorLoop fuel caches below
    else do
      let metadata ← heldMeta dag current
      if metadata.parents = [] then floorLoop fuel (caches.putFloor current current) below
      else if metadata.parents.filter (fun parent => (caches.floors parent).isNone) ≠ [] then
        floorLoop fuel caches
          ((metadata.parents.filter fun parent => (caches.floors parent).isNone).reverse ++ current :: below)
      else do
        let inherited ← metadata.parents.mapM (cachedFloor dag caches)
        let (floor, frontier) ← deriveFloor dag blockStore ftt caches.frontiers metadata.parents
          (snapshot metadata.justifications) inherited
        floorLoop fuel ((caches.putFloor current floor.hash).putFrontier current frontier.hash) below

def floorOfBlock (fuel : Nat) (caches : FloorCaches) (blockHash : Bytes) : Except CasperError (Floor × FloorCaches) := do
  let resolved ← floorLoop dag blockStore ftt fuel caches [blockHash]
  let floor ← cachedFloor dag resolved blockHash
  .ok (floor, resolved)

end derivation

variable (dag : KeyValueDagRepresentation) (blockStore : KeyValueBlockStore) (ftt : FtThreshold)

/-- The floor that the recursion over parents gives, all frontiers found from the top. -/
inductive FloorOf : Bytes → Floor → Prop
  | genesis {hash : Bytes} {m : BlockMetadata} : dag.lookup hash = some m → m.parents = [] →
      FloorOf hash ⟨hash, m.blockNumber⟩
  | derived {hash : Bytes} {m : BlockMetadata} {floorAt : Bytes → Floor} {floor frontier : Floor} :
      dag.lookup hash = some m → m.parents ≠ [] → (∀ parent ∈ m.parents, FloorOf parent (floorAt parent)) →
      deriveFloor dag blockStore ftt (fun _ => none) m.parents (snapshot m.justifications) (m.parents.map floorAt) =
        .ok (floor, frontier) →
      FloorOf hash floor

def HeldFloor (floor : Floor) : Prop := ∃ m, dag.lookup floor.hash = some m ∧ m.blockNumber = floor.blockNumber

variable {dag blockStore ftt}

variable {hash : Bytes} {f : Floor}

theorem FloorOf.unique {g : Floor} (hf : FloorOf dag blockStore ftt hash f)
    (hg : FloorOf dag blockStore ftt hash g) : f = g := by
  induction hf generalizing g with
  | genesis hm hRoot =>
    cases hg with
    | genesis hm' _ => rw [Option.some.inj (hm.symm.trans hm')]
    | derived hm' hNe _ _ =>
      obtain rfl := Option.some.inj (hm.symm.trans hm')
      exact absurd hRoot hNe
  | @derived hash m floorAt floor frontier hm hNe _ hDerive ih =>
    cases hg with
    | genesis hm' hRoot =>
      obtain rfl := Option.some.inj (hm.symm.trans hm')
      exact absurd hRoot hNe
    | derived hm' _ hParents' hDerive' =>
      obtain rfl := Option.some.inj (hm.symm.trans hm')
      rw [List.map_congr_left fun parent hParent => ih parent hParent (hParents' parent hParent)] at hDerive
      exact (Prod.mk.inj (Except.ok.inj (hDerive.symm.trans hDerive'))).1

section candidates

variable {latestMessages : LatestMessages} {parents : List Bytes} {inherited : List Floor}

theorem firstSound_eq_some {candidates : List Floor} {floor : Floor}
    (h : firstSound dag blockStore parents inherited candidates = .ok (some floor)) :
    (∀ other ∈ inherited, soundWith dag blockStore parents floor other = .ok true) ∧
      ∃ before after, candidates = before ++ floor :: after ∧
        ∀ cand ∈ before, ¬ ∀ other ∈ inherited, soundWith dag blockStore parents cand other = .ok true := by
  induction candidates with
  | nil => cases h
  | cons cand rest ih =>
    obtain ⟨sound, hSound, hNext⟩ := exists_of_bind_ok h
    cases sound with
    | true =>
      obtain rfl := Option.some.inj (Except.ok.inj hNext)
      exact ⟨allM_eq_true.mp hSound, [], rest, rfl, by simp⟩
    | false =>
      obtain ⟨hFloor, before, after, rfl, hBefore⟩ := ih hNext
      refine ⟨hFloor, cand :: before, after, rfl, List.forall_mem_cons.mpr ⟨fun hAll => ?_, hBefore⟩⟩
      rw [allM_eq_true.mpr hAll] at hSound
      cases hSound

theorem deriveFloor_eq_ok {frontierCache : Bytes → Option Bytes} {floor frontier : Floor}
    (h : deriveFloor dag blockStore ftt frontierCache parents latestMessages inherited = .ok (floor, frontier)) :
    ∃ frontiers, parents.mapM (parentFrontier dag latestMessages ftt frontierCache) = .ok frontiers ∧
      frontiers.head? = some frontier ∧
      firstSound dag blockStore parents inherited ((inherited ++ frontiers).insertionSort fun a b => isHigher a b) =
        .ok (some floor) := by
  cases parents with
  | nil => cases h
  | cons mainParent others =>
    obtain ⟨mainFrontier, hMain, hNext⟩ := exists_of_bind_ok h
    obtain ⟨frontiers, hOthers, hLast⟩ := exists_of_bind_ok hNext
    obtain ⟨found, hFound, hEnd⟩ := exists_of_bind_ok hLast
    cases found with
    | none => cases hEnd
    | some found =>
      obtain ⟨rfl, rfl⟩ := Prod.mk.inj (Except.ok.inj hEnd)
      refine ⟨mainFrontier :: frontiers, ?_, rfl, hFound⟩
      rw [List.mapM_cons, hMain, hOthers]
      rfl

theorem deriveFloor_cache (hDag : Complete dag) {frontierCache : Bytes → Option Bytes}
    (hCache : ∀ hash pivot, frontierCache hash = some pivot → ∃ m, dag.lookup pivot = some m)
    (hParents : ∀ parent ∈ parents, ∃ m, dag.lookup parent = some m) :
    deriveFloor dag blockStore ftt frontierCache parents latestMessages inherited =
      deriveFloor dag blockStore ftt (fun _ => none) parents latestMessages inherited := by
  have hSame : ∀ parent ∈ parents, parentFrontier dag latestMessages ftt frontierCache parent =
      parentFrontier dag latestMessages ftt (fun _ => none) parent := by
    intro parent hParent
    obtain ⟨m, hm⟩ := hParents parent hParent
    exact parentFrontier_of_held hDag hm (hCache parent)
  cases parents with
  | nil => rfl
  | cons mainParent others =>
    obtain ⟨hMain, hOthers⟩ := List.forall_mem_cons.mp hSame
    rw [deriveFloor, deriveFloor, hMain, mapM_congr hOthers]

end candidates

theorem coldParentFrontier_held (hDag : Complete dag) {latestMessages : LatestMessages} {parent : Bytes}
    {m : BlockMetadata} (hm : dag.lookup parent = some m)
    (h : coldParentFrontier dag latestMessages ftt parent = .ok f) : HeldFloor dag f := by
  obtain ⟨f', hCold, hFrontier⟩ := @coldParentFrontier_returns dag latestMessages ftt parent m hDag hm
  rw [Except.ok.inj (h.symm.trans hCold)]
  exact hFrontier.held

variable {floor : Floor}

theorem deriveFloor_held (hDag : Complete dag) {latestMessages : LatestMessages} {parents : List Bytes}
    {inherited : List Floor} (hParents : ∀ parent ∈ parents, ∃ m, dag.lookup parent = some m)
    (hInherited : ∀ f ∈ inherited, HeldFloor dag f) {frontier : Floor}
    (h : deriveFloor dag blockStore ftt (fun _ => none) parents latestMessages inherited = .ok (floor, frontier)) :
    HeldFloor dag floor ∧ HeldFloor dag frontier := by
  obtain ⟨frontiers, hFrontiers, hHead, hFirst⟩ := deriveFloor_eq_ok h
  have hHeld : ∀ f ∈ frontiers, HeldFloor dag f := by
    intro f hf
    obtain ⟨parent, hParent, hOk⟩ := (mem_of_mapM_ok hFrontiers f).mp hf
    obtain ⟨m, hm⟩ := hParents parent hParent
    exact coldParentFrontier_held hDag hm hOk
  refine ⟨?_, hHeld frontier (List.mem_of_head? hHead)⟩
  obtain ⟨-, before, after, hSplit, -⟩ := firstSound_eq_some hFirst
  have hMem : floor ∈ inherited ++ frontiers := by
    refine (List.perm_insertionSort (fun a b => isHigher a b) _).subset ?_
    rw [hSplit]
    exact List.mem_append_right before List.mem_cons_self
  exact (List.mem_append.mp hMem).elim (hInherited floor) (hHeld floor)

theorem FloorOf.held (hDag : Complete dag) (h : FloorOf dag blockStore ftt hash f) :
    HeldFloor dag f := by
  induction h with
  | genesis hm _ => exact ⟨_, hm, rfl⟩
  | @derived hash m floorAt floor frontier hm hNe _ hDerive ih =>
    refine (deriveFloor_held hDag (hDag.parents hash m hm) (fun f hf => ?_) hDerive).1
    obtain ⟨parent, hParent, rfl⟩ := List.mem_map.mp hf
    exact ih parent hParent

variable (dag blockStore ftt) in
structure FloorCaches.Valid (caches : FloorCaches) : Prop where
  floors : ∀ hash cached, caches.floors hash = some cached → ∃ f, FloorOf dag blockStore ftt hash f ∧ f.hash = cached
  frontiers : ∀ hash cached, caches.frontiers hash = some cached → ∃ m, dag.lookup cached = some m

namespace FloorCaches

theorem Valid.empty : FloorCaches.empty.Valid dag blockStore ftt where
  floors _ _ h := by cases h
  frontiers _ _ h := by cases h

variable {hash : Bytes} {f : Floor}

section

variable {caches : FloorCaches} (h : caches.Valid dag blockStore ftt)

include h

theorem Valid.putFloor
    (hf : FloorOf dag blockStore ftt hash f) : (caches.putFloor hash f.hash).Valid dag blockStore ftt where
  floors other cached hCached := by
    rw [FloorCaches.putFloor] at hCached
    dsimp only at hCached
    split at hCached
    case isTrue hEq =>
      subst hEq
      exact ⟨f, hf, Option.some.inj hCached⟩
    case isFalse => exact h.floors other cached hCached
  frontiers := h.frontiers

theorem Valid.putFrontier (hash : Bytes) {frontier : Bytes}
    (hHeld : ∃ m, dag.lookup frontier = some m) : (caches.putFrontier hash frontier).Valid dag blockStore ftt where
  floors := h.floors
  frontiers other cached hCached := by
    rw [FloorCaches.putFrontier] at hCached
    dsimp only at hCached
    split at hCached
    · rw [← Option.some.inj hCached]
      exact hHeld
    · exact h.frontiers other cached hCached

theorem Valid.cachedFloor_eq_ok (hDag : Complete dag)
    (hf : cachedFloor dag caches hash = .ok f) : FloorOf dag blockStore ftt hash f := by
  rw [cachedFloor] at hf
  cases hCached : caches.floors hash with
  | none =>
    rw [hCached] at hf
    cases hf
  | some cached =>
    obtain ⟨g, hg, rfl⟩ := h.floors hash cached hCached
    obtain ⟨m, hm, hNumber⟩ := hg.held hDag
    rw [hCached] at hf
    dsimp only at hf
    rw [heldNumber_eq hm, hNumber] at hf
    rw [← Except.ok.inj hf]
    exact hg

theorem Valid.cachedFloor_eq (hDag : Complete dag)
    (hf : FloorOf dag blockStore ftt hash f) (hCached : caches.floors hash ≠ none) :
    cachedFloor dag caches hash = .ok f := by
  obtain ⟨cached, hSome⟩ := Option.ne_none_iff_exists'.mp hCached
  obtain ⟨g, hg, rfl⟩ := h.floors hash cached hSome
  obtain rfl := hf.unique hg
  obtain ⟨m, hm, hNumber⟩ := hf.held hDag
  rw [cachedFloor, hSome]
  dsimp only
  rw [heldNumber_eq hm, hNumber]
  rfl

end

end FloorCaches

section turns

variable {caches : FloorCaches} {current : Bytes} {below : List Bytes} {m : BlockMetadata} (fuel : Nat)

theorem floorLoop_cached (hCached : caches.floors current ≠ none) :
    floorLoop dag blockStore ftt (fuel + 1) caches (current :: below) =
      floorLoop dag blockStore ftt fuel caches below := by
  rw [floorLoop, if_pos (Option.isSome_iff_ne_none.mpr hCached)]

theorem floorLoop_uncached (hCached : caches.floors current = none) (hm : dag.lookup current = some m) :
    floorLoop dag blockStore ftt (fuel + 1) caches (current :: below) =
      if m.parents = [] then floorLoop dag blockStore ftt fuel (caches.putFloor current current) below
      else if m.parents.filter (fun parent => (caches.floors parent).isNone) ≠ [] then
        floorLoop dag blockStore ftt fuel caches
          ((m.parents.filter fun parent => (caches.floors parent).isNone).reverse ++ current :: below)
      else (do
        let inherited ← m.parents.mapM (cachedFloor dag caches)
        let (floor, frontier) ← deriveFloor dag blockStore ftt caches.frontiers m.parents
          (snapshot m.justifications) inherited
        floorLoop dag blockStore ftt fuel ((caches.putFloor current floor.hash).putFrontier current frontier.hash)
          below) := by
  have hNone : ¬ (caches.floors current).isSome = true := by
    rw [hCached]
    exact Bool.false_ne_true
  rw [floorLoop, if_neg hNone, heldMeta_eq hm]
  rfl

end turns

theorem floorLoop_valid (hDag : Complete dag) {fuel : Nat} {caches caches' : FloorCaches} {stack : List Bytes}
    (hValid : caches.Valid dag blockStore ftt) (h : floorLoop dag blockStore ftt fuel caches stack = .ok caches') :
    caches'.Valid dag blockStore ftt := by
  induction fuel generalizing caches stack with
  | zero =>
    cases stack with
    | nil => exact Except.ok.inj h ▸ hValid
    | cons => cases h
  | succ fuel ih =>
    cases stack with
    | nil => exact Except.ok.inj h ▸ hValid
    | cons current below =>
      by_cases hCached : caches.floors current = none
      · cases hm : dag.lookup current with
        | none =>
          rw [floorLoop, hCached, heldMeta, hm] at h
          cases h
        | some m =>
          rw [floorLoop_uncached fuel hCached hm] at h
          split at h
          case isTrue hRoot => exact ih (hValid.putFloor (.genesis hm hRoot)) h
          case isFalse hNe =>
            split at h
            case isTrue => exact ih hValid h
            case isFalse =>
              obtain ⟨inherited, hInherited, hNext⟩ := exists_of_bind_ok h
              obtain ⟨⟨floor, frontier⟩, hDerive, hLast⟩ := exists_of_bind_ok hNext
              have hParents := hDag.parents current m hm
              obtain rfl := @map_of_mapM_ok _ _ _ _
                (fun parent => (cachedFloor dag caches parent).toOption.getD ⟨[], 0⟩) _ _ hInherited
                fun parent _ f hf => by rw [hf]; rfl
              have hFloors : ∀ parent ∈ m.parents, FloorOf dag blockStore ftt parent
                  ((cachedFloor dag caches parent).toOption.getD ⟨[], 0⟩) := by
                intro parent hParent
                obtain ⟨f, -, hf⟩ := exists_of_mapM_ok hInherited hParent
                rw [hf]
                exact hValid.cachedFloor_eq_ok hDag hf
              rw [deriveFloor_cache hDag hValid.frontiers hParents] at hDerive
              have hHeld := deriveFloor_held hDag hParents (fun f hf => ?_) hDerive
              · obtain ⟨-, mf, hmf, -⟩ := hHeld
                exact ih ((hValid.putFloor (.derived hm hNe hFloors hDerive)).putFrontier current ⟨mf, hmf⟩) hLast
              · obtain ⟨parent, hParent, rfl⟩ := List.mem_map.mp hf
                exact (hFloors parent hParent).held hDag
      · rw [floorLoop_cached fuel hCached] at h
        exact ih hValid h

variable (dag blockStore ftt) in
/-- In some turns the loop goes from one cache to the other and takes the blocks off the stack. -/
structure Resolved (turns : Nat) (blocks : List Bytes) (caches caches' : FloorCaches) : Prop where
  valid : caches'.Valid dag blockStore ftt
  keeps : ∀ hash, caches.floors hash ≠ none → caches'.floors hash ≠ none
  cached : ∀ hash ∈ blocks, caches'.floors hash ≠ none
  loop : ∀ fuel below, floorLoop dag blockStore ftt (fuel + turns) caches (blocks ++ below) =
    floorLoop dag blockStore ftt fuel caches' below

variable (dag blockStore ftt) in
def Resolves (hash : Bytes) : Prop :=
  ∀ caches, caches.Valid dag blockStore ftt → ∃ turns caches', Resolved dag blockStore ftt turns [hash] caches caches'

theorem resolved_of_forall {blocks : List Bytes} (hBlocks : ∀ hash ∈ blocks, Resolves dag blockStore ftt hash)
    {caches : FloorCaches} (hValid : caches.Valid dag blockStore ftt) :
    ∃ turns caches', Resolved dag blockStore ftt turns blocks caches caches' := by
  induction blocks generalizing caches with
  | nil => exact ⟨0, caches, hValid, fun _ h => h, by simp, fun _ _ => rfl⟩
  | cons hash blocks ih =>
    obtain ⟨hHead, hTail⟩ := List.forall_mem_cons.mp hBlocks
    obtain ⟨turns, caches₁, h₁⟩ := hHead caches hValid
    obtain ⟨turns', caches₂, h₂⟩ := ih hTail h₁.valid
    refine ⟨turns' + turns, caches₂, h₂.valid, fun other h => h₂.keeps other (h₁.keeps other h), ?_, ?_⟩
    · exact List.forall_mem_cons.mpr ⟨h₂.keeps hash (h₁.cached hash List.mem_cons_self), h₂.cached⟩
    · intro fuel below
      rw [← Nat.add_assoc, List.cons_append, ← List.singleton_append, h₁.loop, h₂.loop]

theorem putFloor_keeps {caches : FloorCaches} {block floor : Bytes} (h : caches.floors hash ≠ none) :
    (caches.putFloor block floor).floors hash ≠ none := by
  rw [FloorCaches.putFloor]
  dsimp only
  split
  · exact Option.some_ne_none floor
  · exact h

theorem putFloor_self (caches : FloorCaches) (block floor : Bytes) :
    (caches.putFloor block floor).floors block = some floor :=
  if_pos rfl

theorem resolved_of_cached {caches : FloorCaches} (hValid : caches.Valid dag blockStore ftt)
    (hCached : caches.floors hash ≠ none) : Resolved dag blockStore ftt 1 [hash] caches caches :=
  ⟨hValid, fun _ h => h, fun _ h => List.mem_singleton.mp h ▸ hCached, fun fuel _ => floorLoop_cached fuel hCached⟩

theorem exists_resolved_of_parents (hDag : Complete dag) {m : BlockMetadata} {floorAt : Bytes → Floor}
    {frontier : Floor} (hm : dag.lookup hash = some m) (hNe : m.parents ≠ [])
    (hParents : ∀ parent ∈ m.parents, FloorOf dag blockStore ftt parent (floorAt parent))
    (hDerive : deriveFloor dag blockStore ftt (fun _ => none) m.parents (snapshot m.justifications)
      (m.parents.map floorAt) = .ok (floor, frontier))
    {caches : FloorCaches} (hValid : caches.Valid dag blockStore ftt)
    (hCached : ∀ parent ∈ m.parents, caches.floors parent ≠ none) :
    ∃ caches', Resolved dag blockStore ftt 1 [hash] caches caches' := by
  by_cases hHash : caches.floors hash = none
  · have hNone : m.parents.filter (fun parent => (caches.floors parent).isNone) = [] := by
      refine List.filter_eq_nil_iff.mpr fun parent hParent => ?_
      rw [Option.isNone_iff_eq_none]
      exact hCached parent hParent
    have hInherited : m.parents.mapM (cachedFloor dag caches) = .ok (m.parents.map floorAt) :=
      mapM_eq_map fun parent hParent => hValid.cachedFloor_eq hDag (hParents parent hParent) (hCached parent hParent)
    obtain ⟨-, mf, hmf, -⟩ := deriveFloor_held hDag (hDag.parents hash m hm) (fun f hf => by
      obtain ⟨parent, hParent, rfl⟩ := List.mem_map.mp hf
      exact (hParents parent hParent).held hDag) hDerive
    refine ⟨(caches.putFloor hash floor.hash).putFrontier hash frontier.hash,
      (hValid.putFloor (.derived hm hNe hParents hDerive)).putFrontier hash ⟨mf, hmf⟩, fun other h => putFloor_keeps h,
      fun other hOther => ?_, fun fuel below => ?_⟩
    · rw [List.mem_singleton.mp hOther]
      exact ne_of_eq_of_ne (putFloor_self caches hash floor.hash) (Option.some_ne_none _)
    · rw [List.singleton_append, floorLoop_uncached fuel hHash hm, if_neg hNe, if_neg (not_not.mpr hNone), hInherited]
      change (deriveFloor dag blockStore ftt caches.frontiers m.parents _ _ >>= _) = _
      rw [deriveFloor_cache hDag hValid.frontiers (hDag.parents hash m hm), hDerive]
      rfl
  · exact ⟨caches, resolved_of_cached hValid hHash⟩

theorem FloorOf.resolves (hDag : Complete dag) (h : FloorOf dag blockStore ftt hash f) :
    Resolves dag blockStore ftt hash := by
  induction h with
  | @genesis hash m hm hRoot =>
    intro caches hValid
    by_cases hHash : caches.floors hash = none
    · refine ⟨1, caches.putFloor hash hash, hValid.putFloor (.genesis hm hRoot), fun other h => putFloor_keeps h,
        fun other hOther => ?_, fun fuel below => ?_⟩
      · rw [List.mem_singleton.mp hOther]
        exact ne_of_eq_of_ne (putFloor_self caches hash hash) (Option.some_ne_none _)
      · rw [List.singleton_append, floorLoop_uncached fuel hHash hm, if_pos hRoot]
    · exact ⟨1, caches, resolved_of_cached hValid hHash⟩
  | @derived hash m floorAt floor frontier hm hNe hParents hDerive ih =>
    intro caches hValid
    by_cases hHash : caches.floors hash = none
    · by_cases hMissing : m.parents.filter (fun parent => (caches.floors parent).isNone) = []
      · have hCached : ∀ parent ∈ m.parents, caches.floors parent ≠ none := by
          intro parent hParent
          have hSome := List.filter_eq_nil_iff.mp hMissing parent hParent
          rwa [Option.isNone_iff_eq_none] at hSome
        exact ⟨1, exists_resolved_of_parents hDag hm hNe hParents hDerive hValid hCached⟩
      · -- the missing parents come first, then the block has its second turn
        obtain ⟨turns, caches₁, h₁⟩ := @resolved_of_forall _ _ _
          (m.parents.filter fun parent => (caches.floors parent).isNone).reverse
          (fun parent hParent => ih parent (List.mem_of_mem_filter (List.mem_reverse.mp hParent))) caches hValid
        have hCached : ∀ parent ∈ m.parents, caches₁.floors parent ≠ none := by
          intro parent hParent
          by_cases hNone : caches.floors parent = none
          · refine h₁.cached parent (List.mem_reverse.mpr (List.mem_filter.mpr ⟨hParent, ?_⟩))
            rw [hNone]
            rfl
          · exact h₁.keeps parent hNone
        obtain ⟨caches₂, h₂⟩ := exists_resolved_of_parents hDag hm hNe hParents hDerive h₁.valid hCached
        refine ⟨1 + turns + 1, caches₂, h₂.valid, fun other h => h₂.keeps other (h₁.keeps other h), h₂.cached, ?_⟩
        intro fuel below
        have hRest := h₂.loop fuel below
        rw [List.singleton_append] at hRest ⊢
        rw [← Nat.add_assoc, floorLoop_uncached _ hHash hm, if_neg hNe, if_pos hMissing, ← Nat.add_assoc, h₁.loop, hRest]
    · exact ⟨1, caches, resolved_of_cached hValid hHash⟩

variable (dag blockStore ftt) in
def Derives (caches : FloorCaches) (blockHash : Bytes) (floor : Floor) : Prop :=
  ∃ fuel caches', floorOfBlock dag blockStore ftt fuel caches blockHash = .ok (floor, caches')

theorem derives_iff (hDag : Complete dag) {caches : FloorCaches} (hValid : caches.Valid dag blockStore ftt)
    {blockHash : Bytes} :
    Derives dag blockStore ftt caches blockHash floor ↔ FloorOf dag blockStore ftt blockHash floor := by
  constructor
  · rintro ⟨fuel, caches', h⟩
    obtain ⟨resolved, hLoop, hNext⟩ := exists_of_bind_ok h
    obtain ⟨found, hFound, hLast⟩ := exists_of_bind_ok hNext
    rw [← (Prod.mk.inj (Except.ok.inj hLast)).1]
    exact (floorLoop_valid hDag hValid hLoop).cachedFloor_eq_ok hDag hFound
  · intro hFloor
    obtain ⟨turns, caches', h⟩ := hFloor.resolves hDag caches hValid
    have hLoop := h.loop 0 []
    refine ⟨0 + turns, caches', ?_⟩
    rw [floorOfBlock]
    change (floorLoop dag blockStore ftt (0 + turns) caches ([blockHash] ++ []) >>= _) = _
    rw [hLoop]
    change (cachedFloor dag caches' blockHash >>= _) = _
    rw [h.valid.cachedFloor_eq hDag hFloor (h.cached blockHash List.mem_cons_self)]
    rfl

variable (dag blockStore ftt) in
/-- Caches filled by calls that have returned, whatever blocks these were for. -/
def Filled : FloorCaches → Prop :=
  Relation.ReflTransGen (fun caches caches' => ∃ fuel blockHash floor,
    floorOfBlock dag blockStore ftt fuel caches blockHash = .ok (floor, caches')) .empty

theorem Filled.valid (hDag : Complete dag) {caches : FloorCaches} (h : Filled dag blockStore ftt caches) :
    caches.Valid dag blockStore ftt := by
  induction h with
  | refl => exact .empty
  | tail _ hCall ih =>
    obtain ⟨fuel, blockHash, floor, hOk⟩ := hCall
    obtain ⟨resolved, hLoop, hNext⟩ := exists_of_bind_ok hOk
    obtain ⟨found, -, hLast⟩ := exists_of_bind_ok hNext
    rw [← (Prod.mk.inj (Except.ok.inj hLast)).2]
    exact floorLoop_valid hDag ih hLoop

theorem blockNumber_le_of_isHigher {a b : Floor} (h : isHigher a b = true) : b.blockNumber ≤ a.blockNumber := by
  rw [isHigher, decide_eq_true_iff] at h
  omega

instance : Std.Total fun a b : Floor => isHigher a b = true where
  total a b := by
    simp only [isHigher, decide_eq_true_iff]
    rcases lt_trichotomy a.blockNumber b.blockNumber with hLt | hEq | hGt
    · exact .inr (.inl hLt)
    · exact (List.le_total b.hash a.hash).imp (fun h => .inr ⟨hEq, List.not_lt.mpr h⟩)
        fun h => .inr ⟨hEq.symm, List.not_lt.mpr h⟩
    · exact .inl (.inl hGt)

instance : IsTrans Floor fun a b => isHigher a b = true where
  trans a b c hab hbc := by
    simp only [isHigher, decide_eq_true_iff, List.not_lt] at hab hbc ⊢
    rcases hab with hab | ⟨hab, hHash⟩
    · exact .inl (by omega)
    · rcases hbc with hbc | ⟨hbc, hHash'⟩
      · exact .inl (by omega)
      · exact .inr ⟨by omega, List.le_trans hHash' hHash⟩

theorem blockNumber_le_of_sound {parents : List Bytes} {inherited candidates : List Floor} {cand : Floor}
    (h : firstSound dag blockStore parents inherited (candidates.insertionSort fun a b => isHigher a b) =
      .ok (some floor)) (hMem : cand ∈ candidates)
    (hSound : ∀ other ∈ inherited, soundWith dag blockStore parents cand other = .ok true) :
    cand.blockNumber ≤ floor.blockNumber := by
  obtain ⟨-, before, after, hSplit, hBefore⟩ := firstSound_eq_some h
  have hSorted := List.pairwise_insertionSort (fun a b : Floor => isHigher a b = true) candidates
  have hMem' := (List.mem_insertionSort (fun a b : Floor => isHigher a b = true)).mpr hMem
  rw [hSplit] at hSorted hMem'
  rcases List.mem_append.mp hMem' with hIn | hIn
  · exact absurd hSound (hBefore cand hIn)
  · rcases List.mem_cons.mp hIn with rfl | hAfter
    · exact Int.le_refl _
    · exact blockNumber_le_of_isHigher ((List.pairwise_cons.mp (List.pairwise_append.mp hSorted).2.1).1 cand hAfter)

variable (dag blockStore ftt) in
def HasHighCut (m : BlockMetadata) (floorAt : Bytes → Floor) : Prop :=
  ∃ cand, ((∃ parent ∈ m.parents, floorAt parent = cand) ∨
      ∃ parent ∈ m.parents, coldParentFrontier dag (snapshot m.justifications) ftt parent = .ok cand) ∧
    (∀ parent ∈ m.parents, (floorAt parent).blockNumber ≤ cand.blockNumber) ∧
    ∀ parent ∈ m.parents, soundWith dag blockStore m.parents cand (floorAt parent) = .ok true

theorem FloorOf.monotone_iff {m : BlockMetadata} (hm : dag.lookup hash = some m)
    (hNe : m.parents ≠ []) (h : FloorOf dag blockStore ftt hash floor) {floorAt : Bytes → Floor}
    (hParents : ∀ parent ∈ m.parents, FloorOf dag blockStore ftt parent (floorAt parent)) :
    (∀ parent ∈ m.parents, (floorAt parent).blockNumber ≤ floor.blockNumber) ↔
      HasHighCut dag blockStore ftt m floorAt := by
  cases h with
  | genesis hm' hRoot =>
    obtain rfl := Option.some.inj (hm.symm.trans hm')
    exact absurd hRoot hNe
  | derived hm' _ hParents' hDerive =>
    obtain rfl := Option.some.inj (hm.symm.trans hm')
    rw [List.map_congr_left fun parent hParent => (hParents' parent hParent).unique (hParents parent hParent)] at hDerive
    obtain ⟨frontiers, hFrontiers, -, hFirst⟩ := deriveFloor_eq_ok hDerive
    constructor
    · intro hLow
      obtain ⟨hSound, before, after, hSplit, -⟩ := firstSound_eq_some hFirst
      have hMem : floor ∈ m.parents.map floorAt ++ frontiers := by
        refine (List.mem_insertionSort fun a b : Floor => isHigher a b = true).mp ?_
        rw [hSplit]
        exact List.mem_append_right before List.mem_cons_self
      refine ⟨floor, (List.mem_append.mp hMem).imp List.mem_map.mp (mem_of_mapM_ok hFrontiers floor).mp, hLow, ?_⟩
      exact fun parent hParent => hSound _ (List.mem_map.mpr ⟨parent, hParent, rfl⟩)
    · rintro ⟨cand, hCand, hHigh, hSound⟩ parent hParent
      refine (hHigh parent hParent).trans (blockNumber_le_of_sound hFirst ?_ fun other hOther => ?_)
      · exact List.mem_append.mpr (hCand.imp List.mem_map.mpr (mem_of_mapM_ok hFrontiers cand).mpr)
      · obtain ⟨parent', hParent', rfl⟩ := List.mem_map.mp hOther
        exact hSound parent' hParent'

def cutStakes : WeightMap := ⟨[([1], 10), ([2], 1)], by decide⟩

def cutBlock (hash : Bytes) (parents : List Bytes) (sender : Bytes) (justifications : List (Bytes × Bytes)) (number : Int)
    (mergeBase : Bytes) : BlockMetadata where
  blockHash := hash
  parents := parents
  sender := sender
  justifications := justifications.map fun entry => ⟨entry.1, entry.2⟩
  weightMap := cutStakes
  blockNumber := number
  sequenceNumber := number
  invalid := false
  mergeBase := mergeBase

def cutRecords : List BlockMetadata :=
  [cutBlock [0] [] [9] [] 0 [], cutBlock [1] [[0]] [1] [([1], [0]), ([2], [0])] 1 [],
    cutBlock [2] [[0]] [1] [([1], [1]), ([2], [0])] 1 [], cutBlock [3] [[2]] [1] [([1], [2]), ([2], [0])] 2 [],
    cutBlock [4] [[1]] [2] [([1], [1]), ([2], [0])] 2 [], cutBlock [5] [[3]] [2] [([1], [3]), ([2], [4])] 3 [],
    cutBlock [6] [[5], [4]] [1] [([1], [3]), ([2], [5])] 4 [5]]

def cutDag : KeyValueDagRepresentation := .ofRecords cutRecords (by decide) (by decide) (by decide)

def cutStore : KeyValueBlockStore where
  blocks := ⟨[[0], [1], [2], [3], [4], [5], [6]].map fun hash => ⟨hash, hash, if hash = [1] then [⟨[7], false⟩] else [], []⟩,
    (by decide : ([[0], [1], [2], [3], [4], [5], [6]] : List Bytes).Nodup)⟩
  hash_eq hash block h := by
    obtain ⟨_, -, hEq⟩ := List.mem_map.mp (AList.mem_lookup_iff.mp h)
    obtain ⟨rfl, rfl⟩ := Sigma.mk.inj_iff.mp hEq
    rfl

def cutThreshold : FtThreshold := ⟨500000, 1000000, by decide⟩

theorem cutDag_complete : Complete cutDag := by
  have hRecords : cutDag.records = cutRecords := KeyValueDagRepresentation.records_ofRecords
  refine .of_records (fun m => (m.blockHash.headD 0).toNat) ?_ ?_ ?_ <;> rw [hRecords] <;> decide

theorem isDagAncestor_cut :
    cutDag.isDagAncestor [1] [3] = .ok false ∧ cutDag.isDagAncestor [1] [5] = .ok false ∧
      cutDag.isDagAncestor [1] [4] = .ok true ∧ cutDag.isDagAncestor [3] [4] = .ok false := by
  refine ⟨?_, ?_, ?_, ?_⟩
  · change cutDag.ancestry.search [1] 1 {[3]} [[3]] = _
    rw [Ancestry.search_cons, if_neg (by decide)]
    change cutDag.ancestry.search [1] 1 _ [[2]] = _
    rw [Ancestry.search_cons, if_neg (by decide)]
    change cutDag.ancestry.search [1] 1 _ [] = _
    rw [Ancestry.search]
  · change cutDag.ancestry.search [1] 1 {[5]} [[5]] = _
    rw [Ancestry.search_cons, if_neg (by decide)]
    change cutDag.ancestry.search [1] 1 _ [[3]] = _
    rw [Ancestry.search_cons, if_neg (by decide)]
    change cutDag.ancestry.search [1] 1 _ [[2]] = _
    rw [Ancestry.search_cons, if_neg (by decide)]
    change cutDag.ancestry.search [1] 1 _ [] = _
    rw [Ancestry.search]
  · change cutDag.ancestry.search [1] 1 {[4]} [[4]] = _
    rw [Ancestry.search_cons, if_neg (by decide)]
    change cutDag.ancestry.search [1] 1 _ [[1]] = _
    rw [Ancestry.search_cons, if_pos rfl]
  · change cutDag.ancestry.search [3] 2 {[4]} [[4]] = _
    rw [Ancestry.search_cons, if_neg (by decide)]
    change cutDag.ancestry.search [3] 2 _ [] = _
    rw [Ancestry.search]

theorem soundWith_cut : soundWith cutDag cutStore [[5], [4]] ⟨[3], 2⟩ ⟨[1], 1⟩ = .ok false := by
  obtain ⟨hPast, hFirst, hSecond, hOther⟩ := isDagAncestor_cut
  have hContained : stateContains cutDag cutStore ⟨[3], 2⟩ ⟨[1], 1⟩ = .ok false := by rfl
  have hMerged : ([[5], [4]] : List Bytes).anyM (reMerges cutDag ⟨[3], 2⟩ ⟨[1], 1⟩) = .ok false := by
    have hLeft : reMerges cutDag ⟨[3], 2⟩ ⟨[1], 1⟩ [5] = .ok false := by
      rw [reMerges, hFirst]
      rfl
    have hRight : reMerges cutDag ⟨[3], 2⟩ ⟨[1], 1⟩ [4] = .ok false := by
      rw [reMerges, hSecond, hOther]
      rfl
    rw [List.anyM_cons, hLeft]
    change ([[4]] : List Bytes).anyM (reMerges cutDag ⟨[3], 2⟩ ⟨[1], 1⟩) = _
    rw [List.anyM_cons, hRight]
    rfl
  rw [soundWith, if_neg (by decide), hContained, hPast, hMerged]
  rfl

theorem deriveFloor_cut :
    deriveFloor cutDag cutStore cutThreshold (fun _ => none) [[5], [4]] (snapshot [⟨[1], [3]⟩, ⟨[2], [5]⟩])
      [⟨[3], 2⟩, ⟨[1], 1⟩] = .ok (⟨[1], 1⟩, ⟨[3], 2⟩) := by
  have hMain : parentFrontier cutDag (snapshot [⟨[1], [3]⟩, ⟨[2], [5]⟩]) cutThreshold (fun _ => none) [5] =
      .ok ⟨[3], 2⟩ := by rfl
  have hOthers : ([[4]] : List Bytes).mapM
      (parentFrontier cutDag (snapshot [⟨[1], [3]⟩, ⟨[2], [5]⟩]) cutThreshold fun _ => none) = .ok [⟨[0], 0⟩] := by rfl
  have hSkip : ([⟨[3], 2⟩, ⟨[1], 1⟩] : List Floor).allM (soundWith cutDag cutStore [[5], [4]] ⟨[3], 2⟩) = .ok false := by
    change (soundWith cutDag cutStore [[5], [4]] ⟨[3], 2⟩ ⟨[1], 1⟩ >>= fun passes =>
      match passes with | true => ([] : List Floor).allM _ | false => .ok false) = _
    rw [soundWith_cut]
    rfl
  have hFirst : firstSound cutDag cutStore [[5], [4]] [⟨[3], 2⟩, ⟨[1], 1⟩]
      (([⟨[3], 2⟩, ⟨[1], 1⟩] ++ [⟨[3], 2⟩, ⟨[0], 0⟩] : List Floor).insertionSort fun a b => isHigher a b) =
        .ok (some ⟨[1], 1⟩) := by
    change firstSound cutDag cutStore [[5], [4]] _ [⟨[3], 2⟩, ⟨[3], 2⟩, ⟨[1], 1⟩, ⟨[0], 0⟩] = _
    rw [firstSound, hSkip]
    change firstSound cutDag cutStore [[5], [4]] _ [⟨[3], 2⟩, ⟨[1], 1⟩, ⟨[0], 0⟩] = _
    rw [firstSound, hSkip]
    rfl
  rw [deriveFloor, hMain, hOthers]
  change (firstSound cutDag cutStore [[5], [4]] _ _ >>= _) = _
  rw [hFirst]
  rfl

def cutFloorAt (hash : Bytes) : Floor := if hash = [5] then ⟨[3], 2⟩ else ⟨[1], 1⟩

theorem FloorOf.of_single {parent : Bytes} {m : BlockMetadata} {inherited frontier : Floor}
    (hm : dag.lookup hash = some m) (hParents : m.parents = [parent]) (hInherited : FloorOf dag blockStore ftt parent inherited)
    (hDerive : deriveFloor dag blockStore ftt (fun _ => none) m.parents (snapshot m.justifications) [inherited] =
      .ok (f, frontier)) : FloorOf dag blockStore ftt hash f := by
  refine @FloorOf.derived _ _ _ hash m (fun _ => inherited) f frontier hm (by simp [hParents]) ?_ ?_
  · rw [hParents]
    exact fun other hOther => List.mem_singleton.mp hOther ▸ hInherited
  · rwa [hParents] at hDerive ⊢

theorem floorOf_cut_root : FloorOf cutDag cutStore cutThreshold [0] ⟨[0], 0⟩ :=
  @FloorOf.genesis cutDag cutStore cutThreshold [0] (cutBlock [0] [] [9] [] 0 []) rfl rfl

theorem floorOf_cut_left : FloorOf cutDag cutStore cutThreshold [3] ⟨[2], 1⟩ := by
  have hSecond : FloorOf cutDag cutStore cutThreshold [2] ⟨[0], 0⟩ :=
    @FloorOf.of_single cutDag cutStore cutThreshold [2] _ _ _ _ ⟨[0], 0⟩ rfl rfl floorOf_cut_root (by rfl)
  exact @FloorOf.of_single cutDag cutStore cutThreshold [3] _ _ _ _ ⟨[2], 1⟩ rfl rfl hSecond (by rfl)

theorem floorOf_cut_right : FloorOf cutDag cutStore cutThreshold [4] ⟨[1], 1⟩ := by
  have hFirst : FloorOf cutDag cutStore cutThreshold [1] ⟨[0], 0⟩ :=
    @FloorOf.of_single cutDag cutStore cutThreshold [1] _ _ _ _ ⟨[0], 0⟩ rfl rfl floorOf_cut_root (by rfl)
  exact @FloorOf.of_single cutDag cutStore cutThreshold [4] _ _ _ _ ⟨[1], 1⟩ rfl rfl hFirst (by rfl)

theorem floorOf_cut :
    (∀ parent ∈ [[5], [4]], FloorOf cutDag cutStore cutThreshold parent (cutFloorAt parent)) ∧
      FloorOf cutDag cutStore cutThreshold [6] ⟨[1], 1⟩ := by
  have hLeft : FloorOf cutDag cutStore cutThreshold [5] ⟨[3], 2⟩ :=
    @FloorOf.of_single cutDag cutStore cutThreshold [5] _ _ _ _ ⟨[3], 2⟩ rfl rfl floorOf_cut_left (by rfl)
  have hBoth : ∀ parent ∈ [[5], [4]], FloorOf cutDag cutStore cutThreshold parent (cutFloorAt parent) := by
    intro parent hParent
    rcases List.mem_pair.mp hParent with rfl | rfl
    · exact hLeft
    · exact floorOf_cut_right
  exact ⟨hBoth, @FloorOf.derived _ _ _ [6] _ cutFloorAt _ _ rfl (by decide) hBoth deriveFloor_cut⟩

end F1r3Node.Finality
