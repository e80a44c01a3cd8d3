import F1r3Node.Dag.MainChain
import F1r3Node.Finality.MaximumClique

/-! # The clique oracle

A block is certified over a frozen snapshot of latest messages by the committee it carries. The caches of one run hold
what the index answers and are left out.
-/

namespace F1r3Node.Finality

open Shared Lib Dag

/-- A threshold is a fraction with a positive denominator. -/
structure FtThreshold where
  num : Int
  den : Int
  den_pos : 0 < den

/-- Why a target is not certified without a search for cliques. -/
inductive EarlyReturn where
  | targetNotHeld
  | nonPositiveStake
  | noStrictMajority
  deriving DecidableEq

structure ExactOracleResult where
  decision : Bool
  totalStake : Option Int
  agreeingStake : Option Int
  cliqueWeight : Option Int
  earlyReturn : Option EarlyReturn
  deriving DecidableEq

/-- The denominators of `(2q - s) / s ≥ num / den` are cleared. -/
def ftDecidesExact (agreeing q s num den : Int) (strict : Bool) : Bool :=
  if agreeing * 2 ≤ s then false
  else if strict then 2 * q * den > s * (den + num)
  else 2 * q * den ≥ s * (den + num)

def totalWeight (weights : List (Bytes × Int)) : Int := (weights.map Prod.snd).sum

namespace CliqueOracle

variable (dag : KeyValueDagRepresentation) (latestMessages : LatestMessages)

def getCorrespondingWeightMap (targetMsg : Bytes) : Except KvStoreError WeightMap := do
  let metadata ← dag.lookupUnsafe targetMsg
  .ok metadata.weightMap

/-- A validator whose latest message is still the block of height zero that another signed and that does not bond it
has not been heard from. -/
def participates (validator : Bytes) : Bool :=
  match latestMessages.lookup validator with
  | none => true
  | some latest =>
    match dag.lookup latest with
    | none => true
    | some block => block.blockNumber ≠ 0 ∨ block.sender = validator ∨ (block.weightMap.get? validator).isSome

def participatingWeightMap (weightMap : WeightMap) : List (Bytes × Int) :=
  weightMap.entries.filter fun entry => participates dag latestMessages entry.1

def agree (validator message : Bytes) : Except KvStoreError Bool :=
  match latestMessages.lookup validator with
  | none => .ok false
  | some hash =>
    match dag.isInMainChain message hash with
    | .error (.missingBlock _ _) => .ok false
    | other => other

def agreeingWeightMap (weightMap : List (Bytes × Int)) (targetMsg : Bytes) : Except KvStoreError (List (Bytes × Int)) :=
  filterFallible (fun entry => agree dag latestMessages entry.1 targetMsg) weightMap

/-- A visited block disagrees when it is below the target and not on the target's spine, or else when the target is
not on its own. -/
def visit (targetMsg hash : Bytes) (targetHeight : Int) : Except KvStoreError Bool := do
  let visitedHeight ← dag.blockNumberUnsafe hash
  if visitedHeight < targetHeight then dag.isInMainChain hash targetMsg else dag.isInMainChain targetMsg hash

def window (targetMsg stopper : Bytes) (targetHeight : Int) : Nat → Option Bytes → Except KvStoreError Bool
  | _, none => .ok false
  | 0, some _ => .error (.invalidArgument "out of fuel")
  | fuel + 1, some hash =>
    if hash = stopper then .ok false
    else do
      let noDisagreement ← visit dag targetMsg hash targetHeight
      if noDisagreement then
        let previous ← dag.selfJustification hash
        window targetMsg stopper targetHeight fuel previous
      else .ok true

def mightEventuallyDisagree (lmB lmAjB targetMsg : Bytes) : Except KvStoreError Bool := do
  let stopper ← dag.selfJustification lmAjB
  let current ← dag.selfJustification lmB
  let targetHeight ← dag.blockNumberUnsafe targetMsg
  window dag targetMsg (stopper.getD lmAjB) targetHeight (dag.records.length + 1) current

def neverEventuallySeeDisagreement (lmB lmAjB targetMsg : Bytes) : Except KvStoreError Bool := do
  let disagreement ← mightEventuallyDisagree dag lmB lmAjB targetMsg
  .ok !disagreement

/-- A validator that may form an edge, its latest message and the justifications of that. -/
structure Pairwise where
  validator : Bytes
  latest : Bytes
  justifications : List Casper.Justification

def Pairwise.justification (entry : Pairwise) (validator : Bytes) : Option Bytes :=
  (entry.justifications.reverse.find? (·.validator = validator)).map (·.latestBlockHash)

def Pairwise.relevant (agreeing : List Bytes) (entry : Pairwise) : Pairwise :=
  { entry with justifications := entry.justifications.filter (·.validator ∈ agreeing) }

def pairwiseEntry (entry : Bytes × Bytes) : Except KvStoreError Pairwise := do
  let metadata ← dag.lookupUnsafe entry.2
  .ok ⟨entry.1, entry.2, metadata.justifications⟩

/-- Validators without a latest message, or with one that justifies no agreeing validator, form no edge. -/
def pairwiseValidators (agreeing : List Bytes) : Except KvStoreError (List Pairwise) := do
  let entries ← (agreeing.filterMap fun validator => (latestMessages.lookup validator).map (validator, ·)).mapM
    (pairwiseEntry dag)
  .ok ((entries.map (Pairwise.relevant agreeing)).filter (!·.justifications.isEmpty))

def isEdge (targetMsg : Bytes) (a b : Pairwise) : Except KvStoreError Bool :=
  match a.justification b.validator, b.justification a.validator with
  | some lmAjB, some lmBjA => do
    let noDisagreementAB ← neverEventuallySeeDisagreement dag b.latest lmAjB targetMsg
    let noDisagreementBA ← neverEventuallySeeDisagreement dag a.latest lmBjA targetMsg
    .ok (noDisagreementAB && noDisagreementBA)
  | _, _ => .ok false

def agreeingPairs (targetMsg : Bytes) : List Pairwise → Except KvStoreError (List (Bytes × Bytes))
  | [] => .ok []
  | a :: rest => do
    let partners ← filterFallible (isEdge dag targetMsg a) rest
    let pairs ← agreeingPairs targetMsg rest
    .ok (partners.map (fun b => (a.validator, b.validator)) ++ pairs)

def computeAgreeingValidatorPairs (targetMsg : Bytes) (agreeing : List (Bytes × Int)) :
    Except KvStoreError (List (Bytes × Bytes)) := do
  let validators ← pairwiseValidators dag latestMessages (agreeing.map Prod.fst)
  agreeingPairs dag targetMsg validators

def computeMaxCliqueWeight (targetMsg : Bytes) (agreeing : List (Bytes × Int)) : Except KvStoreError Int := do
  let edges ← computeAgreeingValidatorPairs dag latestMessages targetMsg agreeing
  .ok (Clique.findMaximumCliqueByWeight edges agreeing)

def exactResult (targetMsg : Bytes) (ftt : FtThreshold) (strict : Bool) : Except KvStoreError ExactOracleResult :=
  if dag.lookup targetMsg = none then .ok ⟨false, none, none, none, some .targetNotHeld⟩
  else do
    let committee ← getCorrespondingWeightMap dag targetMsg
    let fullWeightMap := participatingWeightMap dag latestMessages committee
    let totalStake := totalWeight fullWeightMap
    if totalStake ≤ 0 then .ok ⟨false, some totalStake, none, none, some .nonPositiveStake⟩
    else do
      let agreeingMap ← agreeingWeightMap dag latestMessages fullWeightMap targetMsg
      let agreeing := totalWeight agreeingMap
      if agreeing * 2 ≤ totalStake then
        .ok ⟨false, some totalStake, some agreeing, none, some .noStrictMajority⟩
      else do
        let maxCliqueWeight ← computeMaxCliqueWeight dag latestMessages targetMsg agreeingMap
        .ok ⟨ftDecidesExact agreeing maxCliqueWeight totalStake ftt.num ftt.den strict, some totalStake, some agreeing,
          some maxCliqueWeight, none⟩

def ftWitnessedExact (targetMsg : Bytes) (ftt : FtThreshold) (strict : Bool) : Except KvStoreError Bool := do
  let result ← exactResult dag latestMessages targetMsg ftt strict
  .ok result.decision

def Agrees (targetMsg validator : Bytes) : Prop :=
  ∃ latest, latestMessages.lookup validator = some latest ∧ dag.OnSpine targetMsg latest

/-- Parents and justifications of held blocks are held, no message comes before itself in the chain of its sender's
messages, and no stake is negative. -/
structure Complete : Prop where
  parents : dag.FullyHeld
  justifications : ∀ hash m, dag.lookup hash = some m → ∀ justification ∈ m.justifications,
    ∃ m', dag.lookup justification.latestBlockHash = some m'
  acyclic : ∀ hash, ¬ Relation.TransGen dag.SelfJustifies hash hash
  stakes : ∀ hash m, dag.lookup hash = some m → ∀ entry ∈ m.weightMap.entries, 0 ≤ entry.2

variable {dag latestMessages}

variable {targetMsg : Bytes} {mT : BlockMetadata}

theorem Complete.agree_returns (hDag : Complete dag) (hT : dag.lookup targetMsg = some mT) (validator : Bytes) :
    Returns (agree dag latestMessages validator targetMsg)
      fun agrees => agrees = true ↔ Agrees dag latestMessages targetMsg validator := by
  rw [agree]
  cases hLatest : latestMessages.lookup validator with
  | none =>
    refine ⟨false, rfl, iff_of_false Bool.false_ne_true ?_⟩
    rintro ⟨latest, hSome, -⟩
    rw [hLatest] at hSome
    cases hSome
  | some latest =>
    have hIff : Agrees dag latestMessages targetMsg validator ↔ dag.OnSpine targetMsg latest := by
      constructor
      · rintro ⟨latest', hSome, hOn⟩
        obtain rfl := Option.some.inj (hLatest.symm.trans hSome)
        exact hOn
      · exact fun hOn => ⟨latest, hLatest, hOn⟩
    cases hHeld : dag.lookup latest with
    | none =>
      dsimp only
      rw [KeyValueDagRepresentation.isInMainChain_of_unheld hT hHeld]
      refine ⟨false, rfl, iff_of_false Bool.false_ne_true ?_⟩
      rw [hIff]
      intro hOn
      obtain ⟨m, hm⟩ := hOn.lookup hT
      rw [hHeld] at hm
      cases hm
    | some m =>
      obtain ⟨found, hFound, hOn⟩ := hDag.parents.isInMainChain_returns hT hHeld
      dsimp only
      rw [hFound]
      exact ⟨found, rfl, hOn.trans hIff.symm⟩

open Classical in
theorem Complete.agreeingWeightMap_eq (hDag : Complete dag)
    (hT : dag.lookup targetMsg = some mT) (weightMap : List (Bytes × Int)) :
    agreeingWeightMap dag latestMessages weightMap targetMsg =
      .ok (weightMap.filter fun entry => Agrees dag latestMessages targetMsg entry.1) :=
  filterFallible_eq fun entry _ => hDag.agree_returns hT entry.1

variable {validator : Bytes}

theorem Agrees.of_onSpine {target target' : Bytes} (h : Agrees dag latestMessages target validator)
    (hOn : dag.OnSpine target' target) : Agrees dag latestMessages target' validator := by
  obtain ⟨latest, hLatest, hSpine⟩ := h
  exact ⟨latest, hLatest, hOn.trans hSpine⟩

variable (dag) in
def Comparable (a b : Bytes) : Prop := dag.OnSpine a b ∨ dag.OnSpine b a

variable {hash : Bytes}

theorem Comparable.of_onSpine {target target' : Bytes} (h : Comparable dag hash target)
    (hOn : dag.OnSpine target' target) : Comparable dag hash target' := by
  rcases h with hBelow | hAbove
  · exact hBelow.total hOn
  · exact .inr (hOn.trans hAbove)

variable {m : BlockMetadata}

theorem Complete.visit_returns (hDag : Complete dag)
    (hT : dag.lookup targetMsg = some mT) (hm : dag.lookup hash = some m) :
    Returns (visit dag targetMsg hash mT.blockNumber)
      fun noDisagreement => noDisagreement = true ↔ Comparable dag hash targetMsg := by
  rw [visit, KeyValueDagRepresentation.blockNumberUnsafe_eq hm]
  change Returns (if m.blockNumber < mT.blockNumber then _ else _) _
  split
  case isTrue hLow =>
    refine (hDag.parents.isInMainChain_returns hm hT).imp fun found hFound => hFound.trans ?_
    refine ⟨.inl, fun h => h.resolve_right fun hOn => ?_⟩
    have hLe := hOn.blockNumber_le hT hm
    omega
  case isFalse hHigh =>
    refine (hDag.parents.isInMainChain_returns hT hm).imp fun found hFound => hFound.trans ?_
    refine ⟨.inr, fun h => h.elim (fun hOn => ?_) id⟩
    rcases eq_or_ne hash targetMsg with rfl | hNe
    · exact .refl _
    · exact absurd (hOn.blockNumber_lt hNe hm hT) hHigh

variable (dag) in
/-- The blocks met from a start along self-justifications before the stopper. -/
inductive InWindow (stopper : Bytes) : Bytes → Bytes → Prop
  | start {hash : Bytes} : hash ≠ stopper → InWindow stopper hash hash
  | step {hash previous visited : Bytes} : hash ≠ stopper → dag.SelfJustifies hash previous →
      InWindow stopper previous visited → InWindow stopper hash visited

variable {stopper : Bytes}

theorem inWindow_iff (hNe : hash ≠ stopper) {previous : Option Bytes}
    (hPrevious : dag.selfJustification hash = .ok previous) (visited : Bytes) :
    InWindow dag stopper hash visited ↔
      visited = hash ∨ ∃ next ∈ previous, InWindow dag stopper next visited := by
  constructor
  · rintro (_ | ⟨-, hStep, hRest⟩)
    · exact .inl rfl
    · obtain rfl := Except.ok.inj (hPrevious.symm.trans hStep)
      exact .inr ⟨_, rfl, hRest⟩
  · rintro (rfl | ⟨next, hNext, hRest⟩)
    · exact .start hNe
    · obtain rfl := Option.mem_def.mp hNext
      exact .step hNe hPrevious hRest

theorem not_inWindow_stopper {visited : Bytes} : ¬ InWindow dag stopper stopper visited := by
  rintro (hNe | ⟨hNe, -, -⟩)
  · exact hNe rfl
  · exact hNe rfl

theorem Complete.lookup_of_selfJustifies (hDag : Complete dag) {previous : Bytes}
    (h : dag.SelfJustifies hash previous) : ∃ m, dag.lookup previous = some m := by
  obtain ⟨m, hm, justification, hMem, rfl⟩ := KeyValueDagRepresentation.mem_justifications_of_selfJustifies h
  exact hDag.justifications hash m hm justification hMem

theorem selfJustification_eq (hm : dag.lookup hash = some m) :
    ∃ previous, dag.selfJustification hash = .ok previous := by
  rw [KeyValueDagRepresentation.selfJustification, hm]
  exact ⟨_, rfl⟩

theorem Complete.window_returns (hDag : Complete dag)
    (hT : dag.lookup targetMsg = some mT) {fuel : Nat} {current : Option Bytes}
    (hCurrent : ∀ hash ∈ current, (∃ m, dag.lookup hash = some m) ∧ dag.countBefore hash < fuel) :
    Returns (window dag targetMsg stopper mT.blockNumber fuel current) fun disagreement => disagreement = false ↔
      ∀ hash ∈ current, ∀ visited, InWindow dag stopper hash visited → Comparable dag visited targetMsg := by
  induction fuel generalizing current with
  | zero =>
    cases current with
    | none => exact ⟨false, rfl, iff_of_true rfl (by simp)⟩
    | some hash =>
      have hLt := (hCurrent hash rfl).2
      omega
  | succ fuel ih =>
    cases current with
    | none => exact ⟨false, rfl, iff_of_true rfl (by simp)⟩
    | some hash =>
      obtain ⟨⟨m, hm⟩, hFuel⟩ := hCurrent hash rfl
      simp only [Option.mem_def, Option.some.injEq, forall_eq'] at ih ⊢
      rw [window]
      split
      case isTrue hStop =>
        subst hStop
        exact ⟨false, rfl, iff_of_true rfl fun visited h => absurd h not_inWindow_stopper⟩
      case isFalse hNe =>
        obtain ⟨previous, hPrevious⟩ := selfJustification_eq hm
        simp only [inWindow_iff hNe hPrevious]
        refine (hDag.visit_returns hT hm).bind fun noDisagreement hVisit => ?_
        cases noDisagreement with
        | false =>
          refine ⟨true, rfl, iff_of_false (by decide) fun h => ?_⟩
          exact Bool.false_ne_true (hVisit.mpr (h hash (.inl rfl)))
        | true =>
          have hHere := hVisit.mp rfl
          change Returns (dag.selfJustification hash >>= fun previous =>
            window dag targetMsg stopper mT.blockNumber fuel previous) _
          rw [hPrevious]
          refine (ih fun next hNext => ?_).imp fun disagreement hRest => hRest.trans ?_
          · obtain rfl := hNext
            obtain ⟨m', hm'⟩ := hDag.lookup_of_selfJustifies hPrevious
            have hLt := KeyValueDagRepresentation.countBefore_lt (hDag.acyclic next) hPrevious hm'
            exact ⟨⟨m', hm'⟩, by omega⟩
          · constructor
            · rintro h visited (rfl | ⟨next, hNext, hIn⟩)
              · exact hHere
              · exact h next hNext visited hIn
            · exact fun h next hNext visited hIn => h visited (.inr ⟨next, hNext, hIn⟩)

variable (dag) in
/-- Whatever the second validator said since the message that the first has seen of it is comparable with the target. -/
def NeverDisagrees (targetMsg lmB lmAjB : Bytes) : Prop :=
  ∀ stopper, dag.selfJustification lmAjB = .ok stopper → ∀ hash, dag.SelfJustifies lmB hash →
    ∀ visited, InWindow dag (stopper.getD lmAjB) hash visited → Comparable dag visited targetMsg

theorem NeverDisagrees.of_onSpine {target target' lmB lmAjB : Bytes} (h : NeverDisagrees dag target lmB lmAjB)
    (hOn : dag.OnSpine target' target) : NeverDisagrees dag target' lmB lmAjB :=
  fun stopper hStopper hash hStart visited hIn => (h stopper hStopper hash hStart visited hIn).of_onSpine hOn

theorem Complete.neverEventuallySeeDisagreement_returns (hDag : Complete dag) {lmB lmAjB : Bytes}
    {mB mAjB : BlockMetadata} (hT : dag.lookup targetMsg = some mT) (hB : dag.lookup lmB = some mB)
    (hAjB : dag.lookup lmAjB = some mAjB) :
    Returns (neverEventuallySeeDisagreement dag lmB lmAjB targetMsg)
      fun never => never = true ↔ NeverDisagrees dag targetMsg lmB lmAjB := by
  obtain ⟨stopper, hStopper⟩ := selfJustification_eq hAjB
  obtain ⟨current, hCurrent⟩ := selfJustification_eq hB
  have hStart : ∀ hash ∈ current, (∃ m, dag.lookup hash = some m) ∧ dag.countBefore hash < dag.records.length + 1 := by
    intro hash hStart
    obtain rfl := Option.mem_def.mp hStart
    exact ⟨hDag.lookup_of_selfJustifies hCurrent, Nat.lt_succ_of_le (KeyValueDagRepresentation.countBefore_le hash)⟩
  rw [neverEventuallySeeDisagreement, mightEventuallyDisagree, hStopper, hCurrent,
    KeyValueDagRepresentation.blockNumberUnsafe_eq hT]
  refine (hDag.window_returns hT hStart).bind fun disagreement hSpec => ⟨!disagreement, rfl, ?_⟩
  dsimp only
  rw [Bool.not_eq_true', hSpec]
  constructor
  · intro h stopper' hStopper' hash hStart visited hIn
    obtain rfl := Except.ok.inj (hStopper.symm.trans hStopper')
    exact h hash (Except.ok.inj (hCurrent.symm.trans hStart)) visited hIn
  · intro h hash hStart visited hIn
    obtain rfl := Option.mem_def.mp hStart
    exact h stopper hStopper hash hCurrent visited hIn

variable {entry : Pairwise}

theorem Pairwise.justification_relevant {agreeing : List Bytes}
    (h : validator ∈ agreeing) : (entry.relevant agreeing).justification validator = entry.justification validator := by
  rw [justification, justification, relevant, ← List.filter_reverse, List.find?_filter]
  congr 2
  funext j
  by_cases hj : j.validator = validator
  · simp [hj, h]
  · simp [hj]

theorem Pairwise.mem_of_justification (h : entry.justification validator = some hash) :
    ∃ j ∈ entry.justifications, j.validator = validator ∧ j.latestBlockHash = hash := by
  obtain ⟨j, hFind, hHash⟩ := Option.map_eq_some_iff.mp h
  refine ⟨j, List.mem_reverse.mp (List.mem_of_find?_eq_some hFind), ?_, hHash⟩
  simpa using List.find?_some hFind

variable (dag) in
def Edge (targetMsg : Bytes) (a b : Pairwise) : Prop :=
  ∃ lmAjB lmBjA, a.justification b.validator = some lmAjB ∧ b.justification a.validator = some lmBjA ∧
    NeverDisagrees dag targetMsg b.latest lmAjB ∧ NeverDisagrees dag targetMsg a.latest lmBjA

variable {a b : Pairwise}

theorem Edge.of_onSpine {target target' : Bytes} (h : Edge dag target a b)
    (hOn : dag.OnSpine target' target) : Edge dag target' a b := by
  obtain ⟨lmAjB, lmBjA, hab, hba, hB, hA⟩ := h
  exact ⟨lmAjB, lmBjA, hab, hba, hB.of_onSpine hOn, hA.of_onSpine hOn⟩

variable (dag) in
def Pairwise.Held (entry : Pairwise) : Prop :=
  (∃ m, dag.lookup entry.latest = some m) ∧
    ∀ j ∈ entry.justifications, ∃ m, dag.lookup j.latestBlockHash = some m

theorem Complete.isEdge_returns (hDag : Complete dag)
    (hT : dag.lookup targetMsg = some mT) (ha : a.Held dag) (hb : b.Held dag) :
    Returns (isEdge dag targetMsg a b) fun edge => edge = true ↔ Edge dag targetMsg a b := by
  rw [isEdge]
  cases hab : a.justification b.validator with
  | none =>
    refine ⟨false, rfl, iff_of_false Bool.false_ne_true ?_⟩
    rintro ⟨lmAjB, -, hSome, -⟩
    rw [hab] at hSome
    cases hSome
  | some lmAjB =>
    cases hba : b.justification a.validator with
    | none =>
      refine ⟨false, rfl, iff_of_false Bool.false_ne_true ?_⟩
      rintro ⟨-, lmBjA, -, hSome, -⟩
      rw [hba] at hSome
      cases hSome
    | some lmBjA =>
      obtain ⟨ja, hja, -, rfl⟩ := Pairwise.mem_of_justification hab
      obtain ⟨jb, hjb, -, rfl⟩ := Pairwise.mem_of_justification hba
      obtain ⟨mA, hA⟩ := ha.1
      obtain ⟨mB, hB⟩ := hb.1
      obtain ⟨mAjB, hAjB⟩ := ha.2 ja hja
      obtain ⟨mBjA, hBjA⟩ := hb.2 jb hjb
      dsimp only
      refine (hDag.neverEventuallySeeDisagreement_returns hT hB hAjB).bind fun neverB hNeverB => ?_
      refine (hDag.neverEventuallySeeDisagreement_returns hT hA hBjA).bind fun neverA hNeverA => ?_
      refine ⟨neverB && neverA, rfl, ?_⟩
      dsimp only
      rw [Bool.and_eq_true, hNeverB, hNeverA]
      constructor
      · exact fun h => ⟨_, _, hab, hba, h⟩
      · rintro ⟨lmAjB, lmBjA, hab', hba', h⟩
        obtain rfl := Option.some.inj (hab.symm.trans hab')
        obtain rfl := Option.some.inj (hba.symm.trans hba')
        exact h

open Classical in
theorem Complete.agreeingPairs_returns (hDag : Complete dag)
    (hT : dag.lookup targetMsg = some mT) {validators : List Pairwise} (hHeld : ∀ a ∈ validators, a.Held dag) :
    Returns (agreeingPairs dag targetMsg validators) fun pairs => ∀ pair, pair ∈ pairs ↔
      ∃ a b, [a, b].Sublist validators ∧ Edge dag targetMsg a b ∧ pair = (a.validator, b.validator) := by
  induction validators with
  | nil =>
    refine ⟨[], rfl, fun pair => iff_of_false List.not_mem_nil ?_⟩
    rintro ⟨a, b, hSub, -⟩
    cases hSub
  | cons a rest ih =>
    obtain ⟨ha, hRest⟩ := List.forall_mem_cons.mp hHeld
    have hPartners : filterFallible (isEdge dag targetMsg a) rest = .ok (rest.filter fun b => Edge dag targetMsg a b) :=
      filterFallible_eq fun b hb => hDag.isEdge_returns hT ha (hRest b hb)
    rw [agreeingPairs, hPartners]
    refine (ih hRest).bind fun pairs hPairs => ⟨_, rfl, fun pair => ?_⟩
    rw [List.mem_append, List.mem_map, hPairs]
    constructor
    · rintro (⟨b, hb, rfl⟩ | ⟨x, y, hSub, hEdge, rfl⟩)
      · obtain ⟨hMem, hEdge⟩ := List.mem_filter.mp hb
        exact ⟨a, b, .cons_cons a (List.singleton_sublist.mpr hMem), of_decide_eq_true hEdge, rfl⟩
      · exact ⟨x, y, .cons a hSub, hEdge, rfl⟩
    · rintro ⟨x, y, hSub, hEdge, rfl⟩
      cases hSub with
      | cons _ hSub => exact .inr ⟨x, y, hSub, hEdge, rfl⟩
      | cons_cons _ hSub =>
        exact .inl ⟨y, List.mem_filter.mpr ⟨List.singleton_sublist.mp hSub, decide_eq_true hEdge⟩, rfl⟩

variable (dag latestMessages) in
def entryOf (validator : Bytes) : Option Pairwise :=
  (latestMessages.lookup validator).bind fun latest =>
    (dag.lookup latest).map fun m => ⟨validator, latest, m.justifications⟩

theorem entryOf_eq_some (h : entryOf dag latestMessages validator = some entry) :
    entry.validator = validator ∧ ∃ m, dag.lookup entry.latest = some m ∧ entry.justifications = m.justifications := by
  obtain ⟨latest, -, hMap⟩ := Option.bind_eq_some_iff.mp h
  obtain ⟨m, hm, rfl⟩ := Option.map_eq_some_iff.mp hMap
  exact ⟨rfl, m, hm, rfl⟩

theorem Complete.held_of_entryOf (hDag : Complete dag)
    (h : entryOf dag latestMessages validator = some entry) : entry.Held dag := by
  obtain ⟨-, m, hm, hEq⟩ := entryOf_eq_some h
  refine ⟨⟨m, hm⟩, ?_⟩
  rw [hEq]
  exact hDag.justifications entry.latest m hm

theorem mapM_pairwiseEntry {agreeing : List Bytes} (hT : dag.lookup targetMsg = some mT)
    (hAgree : ∀ v ∈ agreeing, Agrees dag latestMessages targetMsg v) :
    (agreeing.filterMap fun validator => (latestMessages.lookup validator).map (validator, ·)).mapM (pairwiseEntry dag) =
      .ok (agreeing.filterMap (entryOf dag latestMessages)) := by
  induction agreeing with
  | nil => rfl
  | cons v agreeing ih =>
    obtain ⟨⟨latest, hLatest, hOn⟩, hRest⟩ := List.forall_mem_cons.mp hAgree
    obtain ⟨m, hm⟩ := hOn.lookup hT
    have hEntry : entryOf dag latestMessages v = some ⟨v, latest, m.justifications⟩ := by
      rw [entryOf, hLatest, Option.bind_some, hm]
      rfl
    have hPairwise : pairwiseEntry dag (v, latest) = .ok ⟨v, latest, m.justifications⟩ := by
      rw [pairwiseEntry, KeyValueDagRepresentation.lookupUnsafe_eq_ok.mpr hm]
      rfl
    simp only [List.filterMap_cons, hLatest, hEntry, Option.map_some, List.mapM_cons, hPairwise, ih hRest]
    rfl

theorem edge_relevant {agreeing : List Bytes} (ha : a.validator ∈ agreeing) (hb : b.validator ∈ agreeing) :
    Edge dag targetMsg (a.relevant agreeing) (b.relevant agreeing) ↔ Edge dag targetMsg a b := by
  have hab : (a.relevant agreeing).justification b.validator = a.justification b.validator :=
    Pairwise.justification_relevant hb
  have hba : (b.relevant agreeing).justification a.validator = b.justification a.validator :=
    Pairwise.justification_relevant ha
  constructor
  · rintro ⟨lmAjB, lmBjA, hA, hB, h⟩
    exact ⟨lmAjB, lmBjA, hab.symm.trans hA, hba.symm.trans hB, h⟩
  · rintro ⟨lmAjB, lmBjA, hA, hB, h⟩
    exact ⟨lmAjB, lmBjA, hab.trans hA, hba.trans hB, h⟩

theorem relevant_ne_nil {agreeing : List Bytes} (h : validator ∈ agreeing)
    (hJustifies : a.justification validator = some hash) : (a.relevant agreeing).justifications ≠ [] := by
  obtain ⟨j, hj, rfl, -⟩ := Pairwise.mem_of_justification hJustifies
  exact List.ne_nil_of_mem (List.mem_filter.mpr ⟨hj, decide_eq_true h⟩)

theorem Complete.pairs_returns (hDag : Complete dag)
    (hT : dag.lookup targetMsg = some mT) {agreeing : List (Bytes × Int)}
    (hAgree : ∀ entry ∈ agreeing, Agrees dag latestMessages targetMsg entry.1) :
    Returns (computeAgreeingValidatorPairs dag latestMessages targetMsg agreeing) fun pairs => ∀ pair, pair ∈ pairs ↔
      ∃ a b, [a, b].Sublist ((agreeing.map Prod.fst).filterMap (entryOf dag latestMessages)) ∧
        Edge dag targetMsg a b ∧ pair = (a.validator, b.validator) := by
  have hValidators : ∀ v ∈ agreeing.map Prod.fst, Agrees dag latestMessages targetMsg v := by
    intro v hv
    obtain ⟨entry, hEntry, rfl⟩ := List.mem_map.mp hv
    exact hAgree entry hEntry
  rw [computeAgreeingValidatorPairs, pairwiseValidators, mapM_pairwiseEntry hT hValidators]
  generalize agreeing.map Prod.fst = validators
  have hEntry : ∀ a ∈ validators.filterMap (entryOf dag latestMessages), a.validator ∈ validators ∧ a.Held dag := by
    intro a ha
    obtain ⟨v, hv, hSome⟩ := List.mem_filterMap.mp ha
    rw [(entryOf_eq_some hSome).1]
    exact ⟨hv, hDag.held_of_entryOf hSome⟩
  have hHeld : ∀ a ∈ ((validators.filterMap (entryOf dag latestMessages)).map (Pairwise.relevant validators)).filter
      (!·.justifications.isEmpty), a.Held dag := by
    intro a' ha'
    obtain ⟨a, ha, rfl⟩ := List.mem_map.mp (List.mem_of_mem_filter ha')
    obtain ⟨hLatest, hJustifications⟩ := (hEntry a ha).2
    exact ⟨hLatest, fun j hj => hJustifications j (List.mem_of_mem_filter hj)⟩
  refine (hDag.agreeingPairs_returns hT hHeld).imp fun pairs hPairs pair => (hPairs pair).trans ?_
  constructor
  · rintro ⟨a', b', hSub, hEdge, rfl⟩
    obtain ⟨found, hFound, hEq⟩ := List.sublist_map_iff.mp (hSub.trans List.filter_sublist)
    obtain ⟨a, rest, rfl, rfl, hRest⟩ := List.map_eq_cons_iff.mp hEq.symm
    obtain ⟨b, rest', rfl, rfl, hNil⟩ := List.map_eq_cons_iff.mp hRest
    obtain rfl := List.map_eq_nil_iff.mp hNil
    have ha := (hEntry a (hFound.subset (by simp))).1
    have hb := (hEntry b (hFound.subset (by simp))).1
    exact ⟨a, b, hFound, (edge_relevant ha hb).mp hEdge, rfl⟩
  · rintro ⟨a, b, hSub, hEdge, rfl⟩
    have ha := (hEntry a (hSub.subset (by simp))).1
    have hb := (hEntry b (hSub.subset (by simp))).1
    refine ⟨a.relevant validators, b.relevant validators, ?_, (edge_relevant ha hb).mpr hEdge, rfl⟩
    obtain ⟨lmAjB, lmBjA, hab, hba, -⟩ := hEdge
    have hFilter := (hSub.map (Pairwise.relevant validators)).filter (!·.justifications.isEmpty)
    have hSelf : [a.relevant validators, b.relevant validators].filter (!·.justifications.isEmpty) =
        [a.relevant validators, b.relevant validators] := by
      simp [relevant_ne_nil hb hab, relevant_ne_nil ha hba]
    rwa [List.map_cons, List.map_cons, List.map_nil, hSelf] at hFilter

variable (dag latestMessages) in
def Certified (ftt : FtThreshold) (targetMsg : Bytes) : Prop :=
  ∃ result, exactResult dag latestMessages targetMsg ftt false = .ok result ∧ result.decision = true

variable (dag latestMessages) in
open Classical in
/-- The participating validators that agree on a target. -/
noncomputable def agreeing (weightMap : WeightMap) (targetMsg : Bytes) : List (Bytes × Int) :=
  (participatingWeightMap dag latestMessages weightMap).filter fun entry => Agrees dag latestMessages targetMsg entry.1

theorem mem_agreeing {weightMap : WeightMap} {entry : Bytes × Int} :
    entry ∈ agreeing dag latestMessages weightMap targetMsg ↔
      entry ∈ participatingWeightMap dag latestMessages weightMap ∧ Agrees dag latestMessages targetMsg entry.1 := by
  classical
  rw [agreeing, List.mem_filter, decide_eq_true_iff]

variable {q : Int}

theorem ftDecidesExact_iff {agreeing s num den : Int} :
    ftDecidesExact agreeing q s num den false = true ↔ s < agreeing * 2 ∧ s * (den + num) ≤ 2 * q * den := by
  rw [ftDecidesExact]
  split
  case isTrue hLow => exact iff_of_false Bool.false_ne_true fun h => by omega
  case isFalse hHigh =>
    rw [if_neg Bool.false_ne_true, decide_eq_true_iff]
    exact ⟨fun h => ⟨by omega, h⟩, fun h => h.2⟩

variable {ftt : FtThreshold}

theorem Complete.exactResult_eq (hDag : Complete dag) (hT : dag.lookup targetMsg = some mT) {total agreed : Int}
    (hTotal : totalWeight (participatingWeightMap dag latestMessages mT.weightMap) = total)
    (hAgreed : totalWeight (agreeing dag latestMessages mT.weightMap targetMsg) = agreed)
    (hClique : computeMaxCliqueWeight dag latestMessages targetMsg
      (agreeing dag latestMessages mT.weightMap targetMsg) = .ok q) :
    exactResult dag latestMessages targetMsg ftt false =
      if total ≤ 0 then .ok ⟨false, some total, none, none, some .nonPositiveStake⟩
      else if agreed * 2 ≤ total then .ok ⟨false, some total, some agreed, none, some .noStrictMajority⟩
      else .ok ⟨ftDecidesExact agreed q total ftt.num ftt.den false, some total, some agreed, some q, none⟩ := by
  have hHeld : ¬ dag.lookup targetMsg = none := by
    rw [hT]
    exact Option.some_ne_none mT
  have hMap : agreeingWeightMap dag latestMessages (participatingWeightMap dag latestMessages mT.weightMap) targetMsg =
      .ok (agreeing dag latestMessages mT.weightMap targetMsg) := hDag.agreeingWeightMap_eq hT _
  subst hTotal hAgreed
  rw [exactResult, if_neg hHeld, getCorrespondingWeightMap, KeyValueDagRepresentation.lookupUnsafe_eq_ok.mpr hT]
  dsimp only [bind, Except.bind]
  rw [hMap]
  dsimp only
  rw [hClique]

theorem Complete.certified_iff (hDag : Complete dag) (hT : dag.lookup targetMsg = some mT) {total agreed : Int}
    (hTotal : totalWeight (participatingWeightMap dag latestMessages mT.weightMap) = total)
    (hAgreed : totalWeight (agreeing dag latestMessages mT.weightMap targetMsg) = agreed)
    (hClique : computeMaxCliqueWeight dag latestMessages targetMsg
      (agreeing dag latestMessages mT.weightMap targetMsg) = .ok q) :
    Certified dag latestMessages ftt targetMsg ↔
      0 < total ∧ total < agreed * 2 ∧ total * (ftt.den + ftt.num) ≤ 2 * q * ftt.den := by
  have hNo : ∀ {result : ExactOracleResult}, result.decision = false → ¬ ∃ result', (.ok result : Except KvStoreError _) =
      .ok result' ∧ result'.decision = true := by
    rintro result hFalse ⟨result', hEq, hTrue⟩
    obtain rfl := Except.ok.inj hEq
    rw [hFalse] at hTrue
    cases hTrue
  rw [Certified, hDag.exactResult_eq hT hTotal hAgreed hClique]
  split
  case isTrue hZero => exact iff_of_false (hNo rfl) fun h => by omega
  case isFalse hPositive =>
    split
    case isTrue hMinority => exact iff_of_false (hNo rfl) fun h => by omega
    case isFalse hMajority =>
      constructor
      · rintro ⟨result, hResult, hDecision⟩
        obtain rfl := Except.ok.inj hResult
        exact ⟨by omega, ftDecidesExact_iff.mp hDecision⟩
      · rintro ⟨-, hDecides⟩
        exact ⟨_, rfl, ftDecidesExact_iff.mpr hDecides⟩

section committee

variable {weightMap : WeightMap} {target target' : Bytes}

theorem agreeing_nonneg (hNonneg : ∀ entry ∈ weightMap.entries, 0 ≤ entry.2) :
    ∀ entry ∈ agreeing dag latestMessages weightMap target, 0 ≤ entry.2 :=
  fun entry hEntry => hNonneg entry (List.mem_of_mem_filter (mem_agreeing.mp hEntry).1)

theorem agreeing_nodup : ((agreeing dag latestMessages weightMap target).map Prod.fst).Nodup := by
  classical
  have hNodup : (weightMap.entries.map Prod.fst).Nodup := by
    refine List.pairwise_map.mpr (weightMap.sorted.imp fun {a b} hLt hEq => ?_)
    rw [hEq] at hLt
    exact List.lt_irrefl _ hLt
  exact hNodup.sublist ((List.filter_sublist.trans List.filter_sublist).map Prod.fst)

theorem agreeing_sublist (hOn : dag.OnSpine target' target) :
    (agreeing dag latestMessages weightMap target).Sublist (agreeing dag latestMessages weightMap target') := by
  classical
  refine List.monotone_filter_right _ fun entry hAgrees => ?_
  exact decide_eq_true ((of_decide_eq_true hAgrees).of_onSpine hOn)

theorem totalWeight_agreeing_le (hNonneg : ∀ entry ∈ weightMap.entries, 0 ≤ entry.2)
    (hOn : dag.OnSpine target' target) :
    totalWeight (agreeing dag latestMessages weightMap target) ≤
      totalWeight (agreeing dag latestMessages weightMap target') := by
  classical
  refine sum_filter_le (fun entry hEntry => hNonneg entry (List.mem_of_mem_filter hEntry)) fun entry _ hAgrees => ?_
  exact decide_eq_true ((of_decide_eq_true hAgrees).of_onSpine hOn)

theorem Complete.computeMaxCliqueWeight_mono (hDag : Complete dag) {m m' : BlockMetadata}
    (hm : dag.lookup target = some m) (hm' : dag.lookup target' = some m') (hOn : dag.OnSpine target' target)
    (hNonneg : ∀ entry ∈ weightMap.entries, 0 ≤ entry.2) :
    ∃ q q', computeMaxCliqueWeight dag latestMessages target (agreeing dag latestMessages weightMap target) = .ok q ∧
      computeMaxCliqueWeight dag latestMessages target' (agreeing dag latestMessages weightMap target') = .ok q' ∧
      q ≤ q' := by
  have hAgree : ∀ {target : Bytes}, ∀ entry ∈ agreeing dag latestMessages weightMap target,
      Agrees dag latestMessages target entry.1 := fun entry hEntry => (mem_agreeing.mp hEntry).2
  have hSub : (agreeing dag latestMessages weightMap target).Sublist (agreeing dag latestMessages weightMap target') :=
    agreeing_sublist hOn
  obtain ⟨pairs, hPairs, hMem⟩ := hDag.pairs_returns hm hAgree
  obtain ⟨pairs', hPairs', hMem'⟩ := hDag.pairs_returns hm' hAgree
  refine ⟨_, _, by rw [computeMaxCliqueWeight, hPairs]; rfl, by rw [computeMaxCliqueWeight, hPairs']; rfl, ?_⟩
  refine Clique.findMaximumCliqueByWeight_mono (agreeing_nonneg hNonneg) agreeing_nodup (fun pair hPair => ?_)
    hSub.subset
  obtain ⟨a, b, hBoth, hEdge, hEq⟩ := (hMem pair).mp hPair
  exact (hMem' pair).mpr ⟨a, b, hBoth.trans ((hSub.map Prod.fst).filterMap _), hEdge.of_onSpine hOn, hEq⟩

end committee

section

variable {target : Bytes} (hDag : Complete dag) (hm : dag.lookup target = some m)

include hDag hm

theorem Complete.certified_of_onSpine {target' : Bytes} {m' : BlockMetadata} (hm' : dag.lookup target' = some m')
    (hCommittee : m'.weightMap = m.weightMap) (hOn : dag.OnSpine target' target)
    (h : Certified dag latestMessages ftt target) : Certified dag latestMessages ftt target' := by
  have hNonneg := hDag.stakes target m hm
  obtain ⟨q, q', hq, hq', hLe⟩ := hDag.computeMaxCliqueWeight_mono hm hm' hOn hNonneg
  obtain ⟨hPositive, hMajority, hWeight⟩ := (hDag.certified_iff hm rfl rfl hq).mp h
  rw [← hCommittee] at hq'
  refine (hDag.certified_iff hm' rfl rfl hq').mpr ?_
  rw [hCommittee]
  have hAgreeing : totalWeight (agreeing dag latestMessages m.weightMap target) ≤
      totalWeight (agreeing dag latestMessages m.weightMap target') := totalWeight_agreeing_le hNonneg hOn
  refine ⟨hPositive, by omega, hWeight.trans ?_⟩
  exact Int.mul_le_mul_of_nonneg_right (by omega) ftt.den_pos.le

theorem Complete.exists_exactResult : ∃ result, exactResult dag latestMessages target ftt false = .ok result := by
  obtain ⟨q, -, hq, -⟩ := hDag.computeMaxCliqueWeight_mono hm hm (.refl target) (hDag.stakes target m hm)
  rw [hDag.exactResult_eq hm rfl rfl hq]
  split
  · exact ⟨_, rfl⟩
  · split
    · exact ⟨_, rfl⟩
    · exact ⟨_, rfl⟩

theorem Complete.comparable_of_certified {target' : Bytes} {m' : BlockMetadata} (hm' : dag.lookup target' = some m')
    (hCommittee : m'.weightMap = m.weightMap) (h : Certified dag latestMessages ftt target)
    (h' : Certified dag latestMessages ftt target') : Comparable dag target target' := by
  classical
  have hNonneg := hDag.stakes target m hm
  obtain ⟨q, -, hq, -⟩ := hDag.computeMaxCliqueWeight_mono hm hm (.refl target) hNonneg
  obtain ⟨q', -, hq', -⟩ := hDag.computeMaxCliqueWeight_mono hm' hm' (.refl target') (hDag.stakes target' m' hm')
  obtain ⟨-, hMajority, -⟩ := (hDag.certified_iff hm rfl rfl hq).mp h
  obtain ⟨-, hMajority', -⟩ := (hDag.certified_iff hm' rfl rfl hq').mp h'
  rw [hCommittee] at hMajority'
  obtain ⟨entry, -, hBoth, hBoth'⟩ : ∃ entry ∈ participatingWeightMap dag latestMessages m.weightMap,
      decide (Agrees dag latestMessages target entry.1) = true ∧
        decide (Agrees dag latestMessages target' entry.1) = true := by
    refine @exists_of_sum_lt _ _ Prod.snd _ _ (fun entry hEntry => hNonneg entry (List.mem_of_mem_filter hEntry)) ?_
    rw [agreeing, totalWeight, totalWeight] at hMajority hMajority'
    omega
  obtain ⟨latest, hLatest, hOn⟩ := of_decide_eq_true hBoth
  obtain ⟨latest', hLatest', hOn'⟩ := of_decide_eq_true hBoth'
  obtain rfl := Option.some.inj (hLatest.symm.trans hLatest')
  exact hOn.total hOn'

end

theorem Complete.of_records (rank : BlockMetadata → Int)
    (hParents : ∀ m ∈ dag.records, ∀ parent ∈ m.parents, parent ∈ dag.records.map (·.blockHash))
    (hJustifications : ∀ m ∈ dag.records, ∀ j ∈ m.justifications,
      ∃ m' ∈ dag.records, m'.blockHash = j.latestBlockHash ∧ rank m' < rank m)
    (hStakes : ∀ m ∈ dag.records, ∀ entry ∈ m.weightMap.entries, 0 ≤ entry.2) : Complete dag where
  parents := KeyValueDagRepresentation.fullyHeld_iff.mpr hParents
  justifications hash m hm j hj := by
    obtain ⟨m', hm', hHash, -⟩ := hJustifications m (KeyValueDagRepresentation.mem_records_of_lookup hm) j hj
    exact ⟨m', hHash ▸ KeyValueDagRepresentation.mem_records.mp hm'⟩
  acyclic hash hCycle := by
    have hLower : ∀ {x y : Bytes}, Relation.TransGen dag.SelfJustifies x y → ∃ mx my, dag.lookup x = some mx ∧
        dag.lookup y = some my ∧ rank my < rank mx := by
      have hStep : ∀ {x y : Bytes}, dag.SelfJustifies x y → ∃ mx my, dag.lookup x = some mx ∧
          dag.lookup y = some my ∧ rank my < rank mx := by
        intro x y h
        obtain ⟨mx, hx, j, hj, rfl⟩ := KeyValueDagRepresentation.mem_justifications_of_selfJustifies h
        obtain ⟨my, hy, hHash, hLt⟩ := hJustifications mx (KeyValueDagRepresentation.mem_records_of_lookup hx) j hj
        exact ⟨mx, my, hx, hHash ▸ KeyValueDagRepresentation.mem_records.mp hy, hLt⟩
      intro x y h
      induction h with
      | single h => exact hStep h
      | tail _ h ih =>
        obtain ⟨mx, my, hx, hy, hLt⟩ := ih
        obtain ⟨my', mz, hy', hz, hLt'⟩ := hStep h
        obtain rfl := Option.some.inj (hy.symm.trans hy')
        exact ⟨mx, mz, hx, hz, hLt'.trans hLt⟩
    obtain ⟨mx, my, hx, hy, hLt⟩ := hLower hCycle
    obtain rfl := Option.some.inj (hx.symm.trans hy)
    exact Int.lt_irrefl _ hLt
  stakes hash m hm := hStakes m (KeyValueDagRepresentation.mem_records_of_lookup hm)

/-! Two validators take turns on one chain. -/

def turnStakes : WeightMap := ⟨[([1], 5), ([2], 5)], by decide⟩

def turnBlock (hash parents sender : Bytes) (justifications : List (Bytes × Bytes)) (number : Int) : BlockMetadata where
  blockHash := hash
  parents := parents.map fun parent => [parent]
  sender := sender
  justifications := justifications.map fun entry => ⟨entry.1, entry.2⟩
  weightMap := turnStakes
  blockNumber := number
  sequenceNumber := number
  invalid := false
  mergeBase := []

def turnRecords : List BlockMetadata :=
  [turnBlock [0] [] [9] [] 0, turnBlock [3] [0] [1] [([1], [0]), ([2], [0])] 1,
    turnBlock [4] [3] [2] [([1], [3]), ([2], [0])] 2, turnBlock [5] [4] [1] [([1], [3]), ([2], [4])] 3,
    turnBlock [6] [5] [2] [([1], [5]), ([2], [4])] 4]

def turnDag : KeyValueDagRepresentation := .ofRecords turnRecords (by decide) (by decide) (by decide)

def turnLatest : LatestMessages := (∅ : LatestMessages).insert [2] [6] |>.insert [1] [5]

theorem turnDag_complete : Complete turnDag := by
  have hRecords : turnDag.records = turnRecords := KeyValueDagRepresentation.records_ofRecords
  refine .of_records (·.blockNumber) ?_ ?_ ?_ <;> rw [hRecords] <;> decide

end CliqueOracle

end F1r3Node.Finality
