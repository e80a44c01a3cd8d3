import F1r3Node.Dag.ParentSelection
import F1r3Node.Dag.Spine
import F1r3Node.Lib.Lineage

/-! # State lineages and containment

A block's state is that of its state parent and what the block itself introduced: the recorded merge base is the state
parent, or the only parent.
-/

namespace F1r3Node.Finality

open Shared Lib Dag

/-- Texts that name blocks carry these beside the message. -/
inductive CasperError where
  | blockNotHeld (hash : Bytes) (context : String)
  | kvStoreError (error : KvStoreError)
  | other (message : String) (blocks : List Bytes)
  | incompatibleFinalizedFork (parents : List Bytes) (candidates : List Floor)
  deriving DecidableEq

def stateParentOf (metadata : BlockMetadata) : Except CasperError (Option Bytes) :=
  if metadata.mergeBase ≠ [] then .ok (some metadata.mergeBase)
  else
    match metadata.parents with
    | [] => .ok none
    | [parent] => .ok (some parent)
    | _ => .error (.other ("state lineage: multi-parent block carries no recorded merge base — " ++
        "refusing to guess its state parent") [metadata.blockHash])

/-- The two lineages meet, or both came to a root without meeting. -/
inductive StateLineage where
  | meet (hash : Bytes)
  | disconnected
  deriving DecidableEq

variable (dag : KeyValueDagRepresentation) (blockStore : KeyValueBlockStore)

def heldMeta (hash : Bytes) : Except CasperError BlockMetadata :=
  match dag.lookup hash with
  | some metadata => .ok metadata
  | none => .error (.blockNotHeld hash "floor held_meta")

def meetLoop : Nat → Bytes → Bytes → Except CasperError StateLineage
  | 0, _, _ => .error (.other "out of fuel" [])
  | fuel + 1, a, b =>
    if a = b then .ok (.meet a)
    else do
      let metaA ← heldMeta dag a
      let metaB ← heldMeta dag b
      if metaB.blockNumber < metaA.blockNumber then
        match ← stateParentOf metaA with
        | some parent => meetLoop fuel parent b
        | none => return .disconnected
      else if metaA.blockNumber < metaB.blockNumber then
        match ← stateParentOf metaB with
        | some parent => meetLoop fuel a parent
        | none => return .disconnected
      else
        let parentA ← stateParentOf metaA
        let parentB ← stateParentOf metaB
        match parentA, parentB with
        | some pa, some pb => meetLoop fuel pa pb
        | _, _ => return .disconnected

/-- The loop has no bound in the source; here it gets more turns than two lineages of held blocks can use. -/
def stateLineageMeet (a b : Bytes) : Except CasperError StateLineage :=
  meetLoop dag (2 * dag.records.length + 1) a b

/-- The signatures of the deploys that did not fail, and of those the merge applied from its scope. -/
def introducedSigs (hash : Bytes) : Except CasperError (List Bytes) :=
  match blockStore.get hash with
  | none => .error (.other ("state containment: lineage block is absent from the block store — " ++
      "refusing to judge membership from an incomplete lineage") [hash])
  | some block => .ok ((block.deploys.filter (!·.isFailed)).map (·.sig) ++ block.appliedFromScope)

def segmentLoop (start meet : Bytes) : Nat → Bytes → List Bytes → Except CasperError (List Bytes)
  | 0, _, _ => .error (.other "out of fuel" [])
  | fuel + 1, current, sigs =>
    if current = meet then .ok sigs
    else do
      let introduced ← introducedSigs blockStore current
      let metadata ← heldMeta dag current
      match ← stateParentOf metadata with
      | some parent => segmentLoop start meet fuel parent (sigs ++ introduced)
      | none => .error (.other ("state containment: lineage reached a root without passing its meet — " ++
          "state-parent pointers are inconsistent") [start, meet])

/-- The signatures introduced on the lineage of `start` strictly above `meet`. -/
def segmentIntroducedSigs (start meet : Bytes) : Except CasperError (List Bytes) :=
  segmentLoop dag blockStore start meet (dag.records.length + 1) start []

def stateContains (cand x : Floor) : Except CasperError Bool :=
  if cand.hash = x.hash then .ok true
  else do
    match ← stateLineageMeet dag cand.hash x.hash with
    | .disconnected => return false
    | .meet meet =>
      if meet = x.hash then return true
      else
        let settled ← segmentIntroducedSigs dag blockStore x.hash meet
        if settled.isEmpty then return true
        else
          let carried ← segmentIntroducedSigs dag blockStore cand.hash meet
          return settled.all (· ∈ carried)

def stateParent (hash : Bytes) : Option Bytes :=
  match dag.lookup hash with
  | none => none
  | some metadata =>
    match stateParentOf metadata with
    | .ok parent => parent
    | .error _ => none

def StateParentsLower : Prop :=
  ∀ hash m parent p, dag.lookup hash = some m → stateParentOf m = .ok (some parent) → dag.lookup parent = some p →
    p.blockNumber < m.blockNumber

def heightOf (hash : Bytes) : Int := ((dag.lookup hash).map (·.blockNumber)).getD (-1)

def Introduces (hash sig : Bytes) : Prop := ∃ sigs, introducedSigs blockStore hash = .ok sigs ∧ sig ∈ sigs

def Settled (hash sig : Bytes) : Prop := ∃ y, Lineage (stateParent dag) y hash ∧ Introduces blockStore y sig

def NoRepeats : Prop :=
  ∀ x y z sig, Lineage (stateParent dag) y x → Lineage (stateParent dag) z x → Introduces blockStore y sig →
    Introduces blockStore z sig → y = z

/-- Every block of the lineage is held with its body, and has a state parent or is a root. -/
structure Readable (hash : Bytes) : Prop where
  held : ∀ y, Lineage (stateParent dag) y hash → ∃ m parent?, dag.lookup y = some m ∧ stateParentOf m = .ok parent?
  stored : ∀ y, Lineage (stateParent dag) y hash → ∃ sigs, introducedSigs blockStore y = .ok sigs

variable {dag blockStore}

variable {hash : Bytes} {m : BlockMetadata}

theorem stateParent_eq {parent? : Option Bytes} (hm : dag.lookup hash = some m)
    (hParent : stateParentOf m = .ok parent?) : stateParent dag hash = parent? := by
  rw [stateParent, hm]
  dsimp only
  rw [hParent]

theorem stateParent_eq_some {parent : Bytes} (h : stateParent dag hash = some parent) :
    ∃ m, dag.lookup hash = some m ∧ stateParentOf m = .ok (some parent) := by
  rw [stateParent] at h
  split at h
  · cases h
  case h_2 m hm =>
    split at h
    case h_1 parent? hParent => exact ⟨m, hm, h ▸ hParent⟩
    case h_2 => cases h

theorem heightOf_eq (h : dag.lookup hash = some m) :
    heightOf dag hash = m.blockNumber := by
  rw [heightOf, h]
  rfl

theorem StateParentsLower.height_lt (hLower : StateParentsLower dag) (x y : Bytes)
    (h : stateParent dag x = some y) : heightOf dag y < heightOf dag x := by
  obtain ⟨m, hm, hParent⟩ := stateParent_eq_some h
  rw [heightOf_eq hm]
  cases hy : dag.lookup y with
  | none =>
    have hNonneg := KeyValueDagRepresentation.blockNumber_nonneg hm
    rw [heightOf, hy]
    exact Int.lt_of_lt_of_le (by decide) hNonneg
  | some p =>
    rw [heightOf_eq hy]
    exact hLower x m y p hm hParent hy

theorem heldMeta_eq (h : dag.lookup hash = some m) : heldMeta dag hash = .ok m := by
  rw [heldMeta, h]

variable {x : Bytes}

theorem Readable.of_lineage {y : Bytes} (h : Readable dag blockStore x) (hy : Lineage (stateParent dag) y x) :
    Readable dag blockStore y where
  held z hz := h.held z (hz.trans hy)
  stored z hz := h.stored z (hz.trans hy)

def countUnder (dag : KeyValueDagRepresentation) (hash : Bytes) : Nat := dag.countBelow (heightOf dag hash)

theorem StateParentsLower.countUnder_lt (hLower : StateParentsLower dag) {y : Bytes}
    (h : stateParent dag x = some y) (hy : dag.lookup y = some m) : countUnder dag y < countUnder dag x := by
  have hLt := hLower.height_lt x y h
  rw [countUnder, countUnder]
  rw [heightOf_eq hy] at hLt ⊢
  exact KeyValueDagRepresentation.countBelow_lt hy hLt

def MeetOutcome (dag : KeyValueDagRepresentation) (a b : Bytes) : StateLineage → Prop
  | .meet m => IsMeet (stateParent dag) m a b
  | .disconnected => ¬ Connected (stateParent dag) a b

variable {a b : Bytes}

theorem MeetOutcome.symm {outcome : StateLineage} (h : MeetOutcome dag a b outcome) :
    MeetOutcome dag b a outcome := by
  cases outcome with
  | meet m => exact IsMeet.symm h
  | disconnected => exact fun hConnected => h hConnected.symm

variable {p : Bytes}

theorem MeetOutcome.of_parent {outcome : StateLineage} (h : MeetOutcome dag p b outcome)
    (hParent : stateParent dag a = some p) (hNot : ¬ Lineage (stateParent dag) a b) : MeetOutcome dag a b outcome := by
  cases outcome with
  | meet m => exact IsMeet.of_parent h hParent hNot
  | disconnected => exact fun hConnected => h (hConnected.parent_left hParent hNot)

theorem Readable.parent (h : Readable dag blockStore a) (hParent : stateParent dag a = some p) :
    Readable dag blockStore p :=
  h.of_lineage (.of_parent hParent)

theorem Readable.exists_lookup (h : Readable dag blockStore a) :
    ∃ m parent?, dag.lookup a = some m ∧ stateParentOf m = .ok parent? :=
  h.held a (.refl a)

section

variable (hLower : StateParentsLower dag) (ha : Readable dag blockStore a)

include hLower ha

theorem StateParentsLower.countUnder_lt_of_readable
    (hParent : stateParent dag a = some p) : countUnder dag p < countUnder dag a := by
  obtain ⟨mp, -, hp, -⟩ := (ha.parent hParent).exists_lookup
  exact hLower.countUnder_lt hParent hp

theorem meetLoop_returns {fuel : Nat} (hb : Readable dag blockStore b)
    (hFuel : countUnder dag a + countUnder dag b < fuel) :
    Returns (meetLoop dag fuel a b) (MeetOutcome dag a b) := by
  induction fuel generalizing a b with
  | zero => omega
  | succ fuel ih =>
    rw [meetLoop]
    split
    case isTrue hEq =>
      obtain rfl := hEq
      exact ⟨.meet a, rfl, IsMeet.self a⟩
    case isFalse hNe =>
      obtain ⟨ma, pa?, hma, hpa⟩ := ha.exists_lookup
      obtain ⟨mb, pb?, hmb, hpb⟩ := hb.exists_lookup
      have hParentA := stateParent_eq hma hpa
      have hParentB := stateParent_eq hmb hpb
      have hHeightA := heightOf_eq hma
      have hHeightB := heightOf_eq hmb
      rw [heldMeta_eq hma, heldMeta_eq hmb]
      change Returns (ite _ _ _) _
      rw [hpa, hpb]
      split
      case isTrue hHigher =>
        have hNot := not_lineage_of_height_le hLower.height_lt hNe (by omega)
        cases pa? with
        | none => exact ⟨.disconnected, rfl, not_connected_of_root hParentA hNot⟩
        | some pa =>
          have hLt := hLower.countUnder_lt_of_readable ha hParentA
          exact (ih (ha.parent hParentA) hb (by omega)).imp fun _ hMeet => hMeet.of_parent hParentA hNot
      case isFalse hNotHigher =>
        have hNot : ¬ Lineage (stateParent dag) b a :=
          not_lineage_of_height_le hLower.height_lt (Ne.symm hNe) (by omega)
        split
        case isTrue hLower' =>
          cases pb? with
          | none => exact ⟨.disconnected, rfl, fun hConnected => not_connected_of_root hParentB hNot hConnected.symm⟩
          | some pb =>
            have hLt := hLower.countUnder_lt_of_readable hb hParentB
            exact (ih ha (hb.parent hParentB) (by omega)).imp fun _ hMeet => (hMeet.symm.of_parent hParentB hNot).symm
        case isFalse hNotLower =>
          -- two blocks at one height are not on each other's lineages, so both give way
          have hNotA := not_lineage_of_height_le hLower.height_lt hNe (by omega)
          cases pa? with
          | none => exact ⟨.disconnected, rfl, not_connected_of_root hParentA hNotA⟩
          | some pa =>
            cases pb? with
            | none => exact ⟨.disconnected, rfl, fun hConnected => not_connected_of_root hParentB hNot hConnected.symm⟩
            | some pb =>
              have hLtA := hLower.countUnder_lt_of_readable ha hParentA
              have hLtB := hLower.countUnder_lt_of_readable hb hParentB
              have hHeight := hLower.height_lt a pa hParentA
              refine (ih (ha.parent hParentA) (hb.parent hParentB) (by omega)).imp fun _ hMeet => ?_
              have hBelow : ¬ Lineage (stateParent dag) b pa :=
                not_lineage_of_height_le hLower.height_lt (fun hEq => by rw [hEq] at hHeightB; omega) (by omega)
              exact ((hMeet.symm.of_parent hParentB hBelow).symm).of_parent hParentA hNotA

theorem stateLineageMeet_returns
    (hb : Readable dag blockStore b) : Returns (stateLineageMeet dag a b) (MeetOutcome dag a b) := by
  refine meetLoop_returns hLower ha hb ?_
  have hA : countUnder dag a ≤ dag.records.length := KeyValueDagRepresentation.countBelow_le _
  have hB : countUnder dag b ≤ dag.records.length := KeyValueDagRepresentation.countBelow_le _
  omega

end

/-- The signature is introduced on the lineage of `hash` above `meet`. -/
def SettledAbove (dag : KeyValueDagRepresentation) (blockStore : KeyValueBlockStore) (meet hash sig : Bytes) : Prop :=
  ∃ y, Lineage (stateParent dag) y hash ∧ ¬ Lineage (stateParent dag) y meet ∧ Introduces blockStore y sig

variable {meet : Bytes}

theorem settledAbove_subset_iff (hNoRepeats : NoRepeats dag blockStore) {c : Bytes}
    (hMeet : IsMeet (stateParent dag) meet c x) :
    (∀ sig, SettledAbove dag blockStore meet x sig → SettledAbove dag blockStore meet c sig) ↔
      ∀ sig, Settled dag blockStore x sig → Settled dag blockStore c sig := by
  constructor
  · rintro hSegments sig ⟨y, hy, hSig⟩
    by_cases hShared : Lineage (stateParent dag) y meet
    · exact ⟨y, hShared.trans hMeet.left, hSig⟩
    · obtain ⟨z, hz, -, hSig'⟩ := hSegments sig ⟨y, hy, hShared, hSig⟩
      exact ⟨z, hz, hSig'⟩
  · rintro hAll sig ⟨y, hy, hNot, hSig⟩
    obtain ⟨z, hz, hSig'⟩ := hAll sig ⟨y, hy, hSig⟩
    refine ⟨z, hz, fun hShared => hNot ?_, hSig'⟩
    rw [hNoRepeats x y z sig hy (hShared.trans hMeet.right) hSig hSig']
    exact hShared

theorem segmentLoop_returns (hLower : StateParentsLower dag) {start : Bytes} {fuel : Nat} {current : Bytes}
    (h : Readable dag blockStore current) (hMeet : Lineage (stateParent dag) meet current)
    (hFuel : countUnder dag current < fuel) (gathered : List Bytes) :
    Returns (segmentLoop dag blockStore start meet fuel current gathered) fun sigs =>
      ∀ sig, sig ∈ sigs ↔ sig ∈ gathered ∨ SettledAbove dag blockStore meet current sig := by
  induction fuel generalizing current gathered with
  | zero => omega
  | succ fuel ih =>
    rw [segmentLoop]
    split
    case isTrue hEq =>
      subst hEq
      refine ⟨gathered, rfl, fun sig => (or_iff_left ?_).symm⟩
      rintro ⟨y, hy, hNot, -⟩
      exact hNot hy
    case isFalse hNe =>
      obtain ⟨m, parent?, hm, hParent⟩ := h.exists_lookup
      obtain ⟨introduced, hIntroduced⟩ := h.stored current (.refl current)
      have hStep := stateParent_eq hm hParent
      cases parent? with
      | none => exact absurd ((lineage_iff_of_root hStep).mp hMeet).symm hNe
      | some parent =>
        have hLt := hLower.countUnder_lt_of_readable h hStep
        have hMeet' : Lineage (stateParent dag) meet parent :=
          ((lineage_iff_of_parent hStep).mp hMeet).resolve_left fun hEq => hNe hEq.symm
        have hAbove : ¬ Lineage (stateParent dag) current meet := by
          intro hBack
          have hHeight := hLower.height_lt current parent hStep
          rcases (hBack.trans hMeet').eq_or_height_lt hLower.height_lt with hEq | hLt'
          · rw [hEq] at hHeight
            omega
          · omega
        rw [hIntroduced, heldMeta_eq hm]
        change Returns (stateParentOf m >>= _) _
        rw [hParent]
        refine (ih (h.parent hStep) hMeet' (by omega) (gathered ++ introduced)).imp fun sigs hSigs sig => ?_
        rw [hSigs, List.mem_append, or_assoc]
        refine or_congr_right ?_
        constructor
        · rintro (hSig | ⟨y, hy, hNot, hSig⟩)
          · exact ⟨current, .refl current, hAbove, introduced, hIntroduced, hSig⟩
          · exact ⟨y, hy.trans (.of_parent hStep), hNot, hSig⟩
        · rintro ⟨y, hy, hNot, hSig⟩
          rcases (lineage_iff_of_parent hStep).mp hy with rfl | hy
          · obtain ⟨sigs', hSigs', hMem⟩ := hSig
            obtain rfl := Except.ok.inj (hIntroduced.symm.trans hSigs')
            exact .inl hMem
          · exact .inr ⟨y, hy, hNot, hSig⟩

theorem segmentIntroducedSigs_returns (hLower : StateParentsLower dag) {start : Bytes}
    (h : Readable dag blockStore start) (hMeet : Lineage (stateParent dag) meet start) :
    Returns (segmentIntroducedSigs dag blockStore start meet) fun sigs =>
      ∀ sig, sig ∈ sigs ↔ SettledAbove dag blockStore meet start sig := by
  have hFuel : countUnder dag start < dag.records.length + 1 :=
    Nat.lt_succ_of_le (KeyValueDagRepresentation.countBelow_le _)
  refine (segmentLoop_returns hLower h hMeet hFuel []).imp fun sigs hSigs sig => ?_
  rw [hSigs, or_iff_right List.not_mem_nil]

theorem stateContains_returns (hLower : StateParentsLower dag) (hNoRepeats : NoRepeats dag blockStore)
    {cand x : Floor} (hCand : Readable dag blockStore cand.hash) (hx : Readable dag blockStore x.hash) :
    Returns (stateContains dag blockStore cand x) fun contained => contained = true ↔
      Connected (stateParent dag) cand.hash x.hash ∧
        ∀ sig, Settled dag blockStore x.hash sig → Settled dag blockStore cand.hash sig := by
  rw [stateContains]
  split
  case isTrue hEq =>
    rw [hEq]
    exact ⟨true, rfl, iff_of_true rfl ⟨⟨x.hash, .refl _, .refl _⟩, fun _ hSig => hSig⟩⟩
  case isFalse hNe =>
    refine (stateLineageMeet_returns hLower hCand hx).bind fun outcome hOutcome => ?_
    cases outcome with
    | disconnected => exact .pure (iff_of_false Bool.false_ne_true fun hBoth => hOutcome hBoth.1)
    | meet m =>
      have hMeet : IsMeet (stateParent dag) m cand.hash x.hash := hOutcome
      have hBoth : (∀ sig, SettledAbove dag blockStore m x.hash sig → SettledAbove dag blockStore m cand.hash sig) ↔
          Connected (stateParent dag) cand.hash x.hash ∧
            ∀ sig, Settled dag blockStore x.hash sig → Settled dag blockStore cand.hash sig := by
        rw [settledAbove_subset_iff hNoRepeats hMeet, and_iff_right hMeet.connected]
      dsimp only
      split
      case isTrue hOn =>
        refine .pure (iff_of_true rfl (hBoth.mp ?_))
        rintro sig ⟨y, hy, hNot, -⟩
        exact absurd (hOn.symm ▸ hy) hNot
      case isFalse hAbove =>
        refine (segmentIntroducedSigs_returns hLower hx hMeet.right).bind fun settled hSettled => ?_
        split
        case isTrue hEmpty =>
          refine .pure (iff_of_true rfl (hBoth.mp fun sig hSig => ?_))
          rw [← hSettled, List.isEmpty_iff.mp hEmpty] at hSig
          cases hSig
        case isFalse =>
          refine (segmentIntroducedSigs_returns hLower hCand hMeet.left).bind fun carried hCarried => .pure ?_
          rw [← hBoth, List.all_eq_true]
          simp only [decide_eq_true_iff, hSettled, hCarried]

/-- The walk finds the meet of two lineages if there is one; on connected lineages containment is the inclusion of what
is settled, reflexive and transitive. -/
theorem stateContains_exact (hLower : StateParentsLower dag) (hNoRepeats : NoRepeats dag blockStore) :
    (∀ a b, Readable dag blockStore a → Readable dag blockStore b →
      Returns (stateLineageMeet dag a b) (MeetOutcome dag a b)) ∧
    (∀ cand x : Floor, Readable dag blockStore cand.hash → Readable dag blockStore x.hash →
      Connected (stateParent dag) cand.hash x.hash →
      Returns (stateContains dag blockStore cand x) fun contained => contained = true ↔
        ∀ sig, Settled dag blockStore x.hash sig → Settled dag blockStore cand.hash sig) ∧
    (∀ x : Floor, stateContains dag blockStore x x = .ok true) ∧
    ∀ a b c : Floor, Readable dag blockStore a.hash → Readable dag blockStore b.hash → Readable dag blockStore c.hash →
      stateContains dag blockStore a b = .ok true → stateContains dag blockStore b c = .ok true →
      stateContains dag blockStore a c = .ok true := by
  refine ⟨fun a b => stateLineageMeet_returns hLower, fun cand x hCand hx hConnected => ?_, fun x => ?_, ?_⟩
  · refine (stateContains_returns hLower hNoRepeats hCand hx).imp fun contained hContained => ?_
    rw [hContained, and_iff_right hConnected]
  · rw [stateContains, if_pos rfl]
  · intro a b c ha hb hc hab hbc
    have hExact : ∀ {x y : Floor}, Readable dag blockStore x.hash → Readable dag blockStore y.hash →
        (stateContains dag blockStore x y = .ok true ↔ Connected (stateParent dag) x.hash y.hash ∧
          ∀ sig, Settled dag blockStore y.hash sig → Settled dag blockStore x.hash sig) := by
      intro x y hx hy
      obtain ⟨contained, hReturn, hIff⟩ := stateContains_returns hLower hNoRepeats hx hy
      rw [hReturn, ← hIff, Except.ok.injEq]
    obtain ⟨hConnected, hSigs⟩ := (hExact ha hb).mp hab
    obtain ⟨hConnected', hSigs'⟩ := (hExact hb hc).mp hbc
    exact (hExact ha hc).mpr ⟨hConnected.trans hConnected', fun sig hSig => hSigs sig (hSigs' sig hSig)⟩

def lineageBlock (hash : Bytes) (parents : List Bytes) (number : Int) : BlockMetadata where
  blockHash := hash
  parents := parents
  sender := []
  justifications := []
  weightMap := .empty
  blockNumber := number
  sequenceNumber := 0
  invalid := false
  mergeBase := []

def siblingsDag : KeyValueDagRepresentation :=
  .ofRecords [lineageBlock [0] [] 0, lineageBlock [1] [[0]] 1, lineageBlock [2] [[0]] 1]
    (by decide) (by decide) (by decide)

def siblingsStore : KeyValueBlockStore where
  blocks := ⟨[[0], [1], [2]].map fun hash => ⟨hash, hash, [⟨hash, false⟩], []⟩,
    (by decide : ([[0], [1], [2]] : List Bytes).Nodup)⟩
  hash_eq hash block h := by
    obtain ⟨_, -, hEq⟩ := List.mem_map.mp (AList.mem_lookup_iff.mp h)
    obtain ⟨rfl, rfl⟩ := Sigma.mk.inj_iff.mp hEq
    rfl

theorem siblingsDag_contained :
    Returns (stateContains siblingsDag siblingsStore ⟨[1], 1⟩ ⟨[0], 0⟩) fun contained => contained = true ↔
      ∀ sig, Settled siblingsDag siblingsStore [0] sig → Settled siblingsDag siblingsStore [1] sig := by
  have hLower : StateParentsLower siblingsDag := by
    intro hash m parent p hm hParent hp
    have hMem := KeyValueDagRepresentation.mem_records_of_lookup hm
    have hMem' := KeyValueDagRepresentation.mem_records_of_lookup hp
    rw [siblingsDag, KeyValueDagRepresentation.records_ofRecords] at hMem hMem'
    have hAll : ∀ m ∈ [lineageBlock [0] [] 0, lineageBlock [1] [[0]] 1, lineageBlock [2] [[0]] 1],
        ∀ p ∈ [lineageBlock [0] [] 0, lineageBlock [1] [[0]] 1, lineageBlock [2] [[0]] 1],
          stateParentOf m = .ok (some p.blockHash) → p.blockNumber < m.blockNumber := by decide
    refine hAll m hMem p hMem' ?_
    rw [KeyValueDagRepresentation.blockHash_of_lookup hp]
    exact hParent
  have hIntroduces : ∀ {y sig}, Introduces siblingsStore y sig → y = sig := by
    rintro y sig ⟨sigs, hSigs, hMem⟩
    rw [introducedSigs] at hSigs
    split at hSigs
    · cases hSigs
    case h_2 block hGet =>
      obtain rfl := Except.ok.inj hSigs
      obtain ⟨hash, -, hEq⟩ := List.mem_map.mp (AList.mem_lookup_iff.mp hGet)
      obtain ⟨rfl, rfl⟩ := Sigma.mk.inj_iff.mp hEq
      exact (List.mem_singleton.mp hMem).symm
  have hNoRepeats : NoRepeats siblingsDag siblingsStore := fun x y z sig _ _ hy hz =>
    (hIntroduces hy).trans (hIntroduces hz).symm
  have hRoot : Readable siblingsDag siblingsStore [0] := by
    refine ⟨fun y hy => ?_, fun y hy => ?_⟩ <;>
      obtain rfl := (lineage_iff_of_root (rfl : stateParent siblingsDag [0] = none)).mp hy
    · exact ⟨_, _, rfl, rfl⟩
    · exact ⟨_, rfl⟩
  have hParent : stateParent siblingsDag [1] = some [0] := rfl
  have hFirst : Readable siblingsDag siblingsStore [1] := by
    refine ⟨fun y hy => ?_, fun y hy => ?_⟩ <;>
      rcases (lineage_iff_of_parent hParent).mp hy with rfl | hy
    · exact ⟨_, _, rfl, rfl⟩
    · exact hRoot.held y hy
    · exact ⟨_, rfl⟩
    · exact hRoot.stored y hy
  exact (stateContains_exact hLower hNoRepeats).2.1 ⟨[1], 1⟩ ⟨[0], 0⟩ hFirst hRoot
    ⟨[0], .of_parent hParent, .refl _⟩

end F1r3Node.Finality
