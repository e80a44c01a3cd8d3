import F1r3Node.Dag.CommonAncestor
import Mathlib.Tactic.Ring.RingNF

/-! # What the scores add up to

On a fully held DAG with one weight map the score of a block is the weight of the validators whose walks come to it.
-/

namespace F1r3Node.Dag

open Shared Lib Estimator KeyValueDagRepresentation

variable {dag : KeyValueDagRepresentation} {lcaBlockNum : Int}

def CreditStep (dag : KeyValueDagRepresentation) (lcaBlockNum : Int) (x y : Bytes) : Prop :=
  ∃ m, dag.lookup x = some m ∧ lcaBlockNum ≤ m.blockNumber ∧ m.parents.head? = some y

/-- The walk from `message` comes to `hash`. -/
def Credited (dag : KeyValueDagRepresentation) (lcaBlockNum : Int) (message hash : Bytes) : Prop :=
  Relation.ReflTransGen (CreditStep dag lcaBlockNum) message hash

theorem Credited.onSpine {message hash : Bytes} (h : Credited dag lcaBlockNum message hash) :
    dag.OnSpine hash message :=
  Relation.ReflTransGen.mono (fun _ _ ⟨m, hm, _, hHead⟩ => mainParent_eq_some.mpr ⟨m, hm, hHead⟩) _ _ h

theorem credited_of_onSpine {message hash : Bytes} (h : dag.OnSpine hash message) {m : BlockMetadata}
    (hm : dag.lookup hash = some m) (hLe : lcaBlockNum ≤ m.blockNumber) : Credited dag lcaBlockNum message hash := by
  induction h using Relation.ReflTransGen.head_induction_on with
  | refl => exact .refl
  | @head x y hStep hRest ih =>
    obtain ⟨mx, hmx, hHead⟩ := mainParent_eq_some.mp hStep
    have hOn : dag.OnSpine hash x := Relation.ReflTransGen.head hStep hRest
    have hHeight := hOn.blockNumber_le hm hmx
    exact .head ⟨mx, hmx, hLe.trans hHeight, hHead⟩ ih

def KeyValueDagRepresentation.SameWeights (dag : KeyValueDagRepresentation) (w : WeightMap) : Prop :=
  ∀ hash m, dag.lookup hash = some m → m.weightMap = w

theorem weightFromValidatorByDag_eq (hHeld : dag.FullyHeld) {w : WeightMap} (hWeights : dag.SameWeights w)
    {hash : Bytes} {m : BlockMetadata} (hm : dag.lookup hash = some m) (validator : Bytes) :
    dag.weightFromValidatorByDag hash validator = .ok (w.getD validator 0) := by
  rw [weightFromValidatorByDag, hm]
  dsimp only
  cases hHead : m.parents.head? with
  | none => rw [hWeights hash m hm]
  | some parent =>
    obtain ⟨p, hp, -⟩ := hHeld.mainParent hm hHead
    dsimp only
    rw [hp]
    dsimp only
    rw [hWeights parent p hp]

theorem exists_lookup_of_weight {hash validator parent : Bytes} {weight : Int} {m : BlockMetadata}
    (h : dag.weightFromValidatorByDag hash validator = .ok weight) (hm : dag.lookup hash = some m)
    (hHead : m.parents.head? = some parent) : ∃ p, dag.lookup parent = some p := by
  rw [weightFromValidatorByDag, hm] at h
  dsimp only at h
  rw [hHead] at h
  dsimp only at h
  cases hLookup : dag.lookup parent with
  | none =>
    rw [hLookup] at h
    cases h
  | some p => exact ⟨p, rfl⟩

theorem mem_of_addScore {scores scores' : Scores} {hash : Bytes} {weight : Int}
    (h : addScore scores hash weight = .ok scores') : ∀ x, x ∈ scores' ↔ x = hash ∨ x ∈ scores := by
  rw [addScore] at h
  split at h
  · cases h
  · intro x
    rw [← Except.ok.inj h, AList.mem_insert]

/-- Every block that `credits` holds of has gained the weight. -/
structure Credits (weight : Int) (credits : Bytes → Prop) [DecidablePred credits] (scores scores' : Scores) : Prop where
  score_eq : ∀ hash, score scores' hash = score scores hash + if credits hash then weight else 0
  mem_iff : ∀ hash, hash ∈ scores' ↔ hash ∈ scores ∨ credits hash

theorem addScore_returns (scores : Scores) (hash : Bytes) (weight : Int) :
    ReturnsUnless scoreOverflow (addScore scores hash weight) (Credits weight (· = hash) scores) := by
  rw [addScore]
  split
  · exact .inl rfl
  · refine .inr ⟨_, rfl, fun hash' => ?_, fun hash' => ?_⟩
    · rcases eq_or_ne hash' hash with rfl | hNe
      · rw [if_pos rfl, score, AList.lookup_insert]
        rfl
      · rw [if_neg hNe, score, AList.lookup_insert_ne hNe, Int.add_zero]
        rfl
    · rw [AList.mem_insert, or_comm]

theorem Credits.union {weight : Int} {P Q R : Bytes → Prop} [DecidablePred P] [DecidablePred Q] [DecidablePred R]
    {scores₀ scores₁ scores₂ : Scores} (h₁ : Credits weight P scores₀ scores₁) (h₂ : Credits weight Q scores₁ scores₂)
    (hUnion : ∀ hash, R hash ↔ P hash ∨ Q hash) (hDisjoint : ∀ hash, P hash → ¬ Q hash) :
    Credits weight R scores₀ scores₂ where
  score_eq hash := by
    rw [h₂.score_eq, h₁.score_eq]
    by_cases hP : P hash
    · rw [if_pos hP, if_neg (hDisjoint hash hP), if_pos ((hUnion hash).mpr (.inl hP)), Int.add_zero]
    · by_cases hQ : Q hash
      · rw [if_neg hP, if_pos hQ, if_pos ((hUnion hash).mpr (.inr hQ)), Int.add_zero]
      · have hR : ¬ R hash := fun hR => ((hUnion hash).mp hR).elim hP hQ
        rw [if_neg hP, if_neg hQ, if_neg hR, Int.add_zero]
  mem_iff hash := by rw [h₂.mem_iff, h₁.mem_iff, hUnion, or_assoc]

theorem addWeightLoop_nil (dag : KeyValueDagRepresentation) (validator : Bytes) (lcaBlockNum : Int) (fuel : Nat)
    (visited : List Bytes) (scores : Scores) :
    addWeightLoop dag validator lcaBlockNum fuel visited [] scores = .ok scores := by
  cases fuel <;> rfl

theorem credited_iff {hash hash' : Bytes} {m : BlockMetadata} (hm : dag.lookup hash = some m) :
    Credited dag lcaBlockNum hash hash' ↔ hash' = hash ∨
      lcaBlockNum ≤ m.blockNumber ∧ ∃ parent, m.parents.head? = some parent ∧
        Credited dag lcaBlockNum parent hash' := by
  rw [Credited, Relation.ReflTransGen.cases_head_iff]
  constructor
  · rintro (rfl | ⟨parent, ⟨m', hm', hLe, hHead⟩, hRest⟩)
    · exact .inl rfl
    · obtain rfl := Option.some.inj (hm.symm.trans hm')
      exact .inr ⟨hLe, parent, hHead, hRest⟩
  · rintro (rfl | ⟨hLe, parent, hHead, hRest⟩)
    · exact .inl rfl
    · exact .inr ⟨parent, ⟨m, hm, hLe, hHead⟩, hRest⟩

open Classical in
theorem addWeightLoop_returns (hHeld : dag.FullyHeld) {w : WeightMap} (hWeights : dag.SameWeights w)
    (validator : Bytes) {fuel : Nat} {visited : List Bytes} {hash : Bytes} {m : BlockMetadata}
    (hm : dag.lookup hash = some m) (hFuel : dag.countBelow m.blockNumber < fuel)
    (hVisited : ∀ x ∈ visited, ∃ mx, dag.lookup x = some mx ∧ m.blockNumber < mx.blockNumber) (scores : Scores) :
    ReturnsUnless scoreOverflow (addWeightLoop dag validator lcaBlockNum fuel visited [hash] scores)
      (Credits (w.getD validator 0) (Credited dag lcaBlockNum hash) scores) := by
  induction fuel generalizing visited hash m scores with
  | zero => omega
  | succ fuel ih =>
    have hNew : hash ∉ visited := by
      intro hMem
      obtain ⟨mx, hmx, hLt⟩ := hVisited hash hMem
      rw [Option.some.inj (hmx.symm.trans hm)] at hLt
      exact Int.lt_irrefl _ hLt
    rw [addWeightLoop, if_neg hNew, weightFromValidatorByDag_eq hHeld hWeights hm]
    change ReturnsUnless scoreOverflow (addScore scores hash _ >>= _) _
    refine (addScore_returns scores hash _).bind fun scores₁ h₁ => ?_
    rw [hashParents, lookupUnsafe, hm]
    change ReturnsUnless scoreOverflow (addWeightLoop dag validator lcaBlockNum fuel (hash :: visited)
      (List.filter _ (if m.blockNumber < lcaBlockNum then [] else m.parents.take 1)) scores₁) _
    have hStop : (∀ hash', Credited dag lcaBlockNum hash hash' ↔ hash' = hash) →
        Credits (w.getD validator 0) (Credited dag lcaBlockNum hash) scores scores₁ := fun hOnly =>
      ⟨fun hash' => by simp only [hOnly, h₁.score_eq hash'], fun hash' => by rw [hOnly, h₁.mem_iff hash']⟩
    split
    case isTrue hBelow =>
      -- the first block below the common ancestor ends the walk
      rw [List.filter_nil, addWeightLoop_nil]
      refine .inr ⟨scores₁, rfl, hStop fun hash' => ?_⟩
      rw [credited_iff hm]
      exact or_iff_left fun h => Int.not_le.mpr hBelow h.1
    case isFalse hAbove =>
      cases hParents : m.parents with
      | nil =>
        rw [List.take_nil, List.filter_nil, addWeightLoop_nil]
        refine .inr ⟨scores₁, rfl, hStop fun hash' => ?_⟩
        rw [credited_iff hm, hParents]
        exact or_iff_left (by rintro ⟨-, parent, ⟨⟩, -⟩)
      | cons parent rest =>
        have hHead : m.parents.head? = some parent := by rw [hParents]; rfl
        obtain ⟨p, hp, hLower⟩ := hHeld.mainParent hm hHead
        have hSeen : ∀ x ∈ hash :: visited, ∃ mx, dag.lookup x = some mx ∧ p.blockNumber < mx.blockNumber := by
          intro x hx
          rcases List.mem_cons.mp hx with rfl | hx
          · exact ⟨m, hm, hLower⟩
          · obtain ⟨mx, hmx, hLt⟩ := hVisited x hx
            exact ⟨mx, hmx, hLower.trans hLt⟩
        have hFresh : parent ∉ hash :: visited := by
          intro hMem
          obtain ⟨mx, hmx, hLt⟩ := hSeen parent hMem
          rw [Option.some.inj (hmx.symm.trans hp)] at hLt
          exact Int.lt_irrefl _ hLt
        have hCount := countBelow_lt hp hLower
        have hKept : [parent].filter (fun x => decide (x ∉ hash :: visited)) = [parent] :=
          List.filter_eq_self.mpr fun x hx => decide_eq_true (List.mem_singleton.mp hx ▸ hFresh)
        rw [List.take_succ_cons, List.take_zero, hKept]
        refine (ih hp (by omega) hSeen scores₁).imp fun scores₂ h₂ => h₁.union h₂ (fun hash' => ?_) ?_
        · rw [credited_iff hm, hHead]
          simp [Int.not_lt.mp hAbove]
        · rintro hash' rfl hCredited
          have hLe := hCredited.onSpine.blockNumber_le hm hp
          omega

open Classical in
/-- The weight of the validators whose message satisfies a property. -/
noncomputable def weightOf (w : WeightMap) (messages : List (Bytes × Bytes)) (P : Bytes → Prop) : Int :=
  (messages.map fun message => if P message.2 then w.getD message.1 0 else 0).sum

section WeightOf

variable {w : WeightMap} (hNonneg : ∀ validator, 0 ≤ w.getD validator 0) {messages : List (Bytes × Bytes)}
  {P Q : Bytes → Prop}

include hNonneg

theorem weightOf_mono (h : ∀ message ∈ messages, P message.2 → Q message.2) :
    weightOf w messages P ≤ weightOf w messages Q := by
  induction messages with
  | nil => exact Int.le_refl _
  | cons message messages ih =>
    obtain ⟨hFirst, hRest⟩ := List.forall_mem_cons.mp h
    have hLe := ih hRest
    have hWeight := hNonneg message.1
    rw [weightOf, weightOf, List.map_cons, List.map_cons, List.sum_cons, List.sum_cons]
    rw [weightOf, weightOf] at hLe
    by_cases hP : P message.2
    · rw [if_pos hP, if_pos (hFirst hP)]
      omega
    · rw [if_neg hP]
      split <;> omega

theorem weightOf_add_le (h : ∀ message ∈ messages, P message.2 → ¬ Q message.2) :
    weightOf w messages P + weightOf w messages Q ≤ weightOf w messages fun _ => True := by
  induction messages with
  | nil => exact Int.le_refl _
  | cons message messages ih =>
    obtain ⟨hFirst, hRest⟩ := List.forall_mem_cons.mp h
    have hLe := ih hRest
    have hWeight := hNonneg message.1
    rw [weightOf, weightOf, weightOf, List.map_cons, List.map_cons, List.map_cons, List.sum_cons, List.sum_cons,
      List.sum_cons, if_pos trivial]
    rw [weightOf, weightOf, weightOf] at hLe
    by_cases hP : P message.2
    · rw [if_pos hP, if_neg (hFirst hP)]
      omega
    · rw [if_neg hP]
      split <;> omega

theorem weightOf_nonneg : 0 ≤ weightOf w messages P :=
  calc
    0 = weightOf w messages fun _ => False := by simp [weightOf]
    _ ≤ weightOf w messages P := weightOf_mono hNonneg fun _ _ h => h.elim

omit hNonneg in
theorem exists_of_weightOf_pos (h : 0 < weightOf w messages P) : ∃ message ∈ messages, P message.2 := by
  by_contra hNone
  have hZero : weightOf w messages P = 0 := by
    rw [weightOf, List.map_congr_left (g := fun _ => 0) fun message hMem => if_neg fun hP => hNone ⟨message, hMem, hP⟩]
    simp
  omega

end WeightOf

structure Tallies (dag : KeyValueDagRepresentation) (lcaBlockNum : Int) (w : WeightMap)
    (messages : List (Bytes × Bytes)) (scores scores' : Scores) : Prop where
  score_eq : ∀ hash, score scores' hash = score scores hash + weightOf w messages (Credited dag lcaBlockNum · hash)
  mem_iff : ∀ hash, hash ∈ scores' ↔ hash ∈ scores ∨ ∃ message ∈ messages, Credited dag lcaBlockNum message.2 hash

open Classical in
theorem foldlM_addWeight_returns (hHeld : dag.FullyHeld) {w : WeightMap} (hWeights : dag.SameWeights w) {lca : Bytes}
    {lcaMetadata : BlockMetadata} (hLca : dag.lookup lca = some lcaMetadata) {messages : List (Bytes × Bytes)}
    (hMessages : ∀ message ∈ messages, ∃ m, dag.lookup message.2 = some m) (scores : Scores) :
    ReturnsUnless scoreOverflow (messages.foldlM (addValidatorWeightDownSupportingChain dag lca) scores)
      (Tallies dag lcaMetadata.blockNumber w messages scores) := by
  induction messages generalizing scores with
  | nil => exact .inr ⟨scores, rfl, fun hash => by simp [weightOf], fun hash => by simp⟩
  | cons message messages ih =>
    obtain ⟨⟨m, hm⟩, hMessages⟩ := List.forall_mem_cons.mp hMessages
    have hFuel : dag.countBelow m.blockNumber < dag.records.length + 1 := Nat.lt_succ_of_le (countBelow_le _)
    rw [List.foldlM_cons, addValidatorWeightDownSupportingChain, lookupUnsafe, hLca]
    have hStart : ∀ x ∈ ([] : List Bytes), ∃ mx, dag.lookup x = some mx ∧ m.blockNumber < mx.blockNumber := by simp
    refine (addWeightLoop_returns hHeld hWeights message.1 hm hFuel hStart scores).bind fun scores₁ h₁ => ?_
    refine (ih hMessages scores₁).imp fun scores₂ h₂ => ⟨fun hash => ?_, fun hash => ?_⟩
    · rw [h₂.score_eq, h₁.score_eq, weightOf, weightOf, List.map_cons, List.sum_cons, Int.add_assoc]
    · rw [h₂.mem_iff, h₁.mem_iff, or_assoc]
      simp only [List.mem_cons, exists_eq_or_imp]

theorem buildScoresMap_returns (hHeld : dag.FullyHeld) {w : WeightMap} (hWeights : dag.SameWeights w) {lca : Bytes}
    {lcaMetadata : BlockMetadata} (hLca : dag.lookup lca = some lcaMetadata) {messages : List (Bytes × Bytes)}
    (hMessages : ∀ message ∈ messages, ∃ m, dag.lookup message.2 = some m) :
    ReturnsUnless scoreOverflow (buildScoresMap dag messages lca)
      (Tallies dag lcaMetadata.blockNumber w messages ∅) :=
  foldlM_addWeight_returns hHeld hWeights hLca hMessages ∅

def Weighed (dag : KeyValueDagRepresentation) (hash : Bytes) : Prop :=
  ∃ m, dag.lookup hash = some m ∧ ∀ parent, m.parents.head? = some parent → ∃ p, dag.lookup parent = some p

theorem eq_of_filter_eq_cons {p : Bytes → Bool} {stop : Prop} [Decidable stop] {parents rest : List Bytes}
    {parent : Bytes} (h : (if stop then [] else parents.take 1).filter p = parent :: rest) :
    ¬ stop ∧ parents.head? = some parent ∧ rest = [] := by
  split at h
  · cases h
  case isFalse hGo =>
    cases parents with
    | nil => cases h
    | cons first others =>
      rw [List.take_succ_cons, List.take_zero, List.filter_cons] at h
      split at h
      · obtain ⟨rfl, rfl⟩ := List.cons.inj h
        exact ⟨hGo, rfl, rfl⟩
      · cases h

theorem addWeightLoop_visits {validator : Bytes} {fuel : Nat} {visited : List Bytes} {hash : Bytes}
    {m : BlockMetadata} {scores scores' : Scores}
    (h : addWeightLoop dag validator lcaBlockNum fuel visited [hash] scores = .ok scores')
    (hm : dag.lookup hash = some m)
    (hVisited : ∀ x ∈ visited, ∃ mx, dag.lookup x = some mx ∧ m.blockNumber < mx.blockNumber) :
    (∀ x ∈ scores, x ∈ scores') ∧ ∀ x, Credited dag lcaBlockNum hash x → x ∈ scores' ∧ Weighed dag x := by
  induction fuel generalizing visited hash m scores with
  | zero => cases h
  | succ fuel ih =>
    have hNew : hash ∉ visited := by
      intro hMem
      obtain ⟨mx, hmx, hLt⟩ := hVisited hash hMem
      rw [Option.some.inj (hmx.symm.trans hm)] at hLt
      exact Int.lt_irrefl _ hLt
    rw [addWeightLoop, if_neg hNew] at h
    obtain ⟨weight, hWeight, h⟩ := exists_of_bind_ok h
    obtain ⟨scores₁, hScores, h⟩ := exists_of_bind_ok h
    have hMem := mem_of_addScore hScores
    have hWeighed : Weighed dag hash := ⟨m, hm, fun parent hHead => exists_lookup_of_weight hWeight hm hHead⟩
    rw [hashParents, lookupUnsafe, hm] at h
    change addWeightLoop dag validator lcaBlockNum fuel (hash :: visited) (List.filter (· ∉ hash :: visited)
      (if m.blockNumber < lcaBlockNum then [] else m.parents.take 1)) scores₁ = _ at h
    have hSeen : ∀ parent p, m.parents.head? = some parent → dag.lookup parent = some p →
        ∀ x ∈ hash :: visited, ∃ mx, dag.lookup x = some mx ∧ p.blockNumber < mx.blockNumber := by
      intro parent p hHead hp x hx
      have hLower := dag.parents_lower hash m hm parent (List.mem_of_head? hHead) p hp
      rcases List.mem_cons.mp hx with rfl | hx
      · exact ⟨m, hm, hLower⟩
      · obtain ⟨mx, hmx, hLt⟩ := hVisited x hx
        exact ⟨mx, hmx, hLower.trans hLt⟩
    cases hQueue : List.filter (· ∉ hash :: visited)
        (if m.blockNumber < lcaBlockNum then [] else m.parents.take 1) with
    | nil =>
      rw [hQueue, addWeightLoop_nil] at h
      obtain rfl := Except.ok.inj h
      refine ⟨fun x hx => (hMem x).mpr (.inr hx), fun x hx => ?_⟩
      rcases (credited_iff hm).mp hx with rfl | ⟨hLe, parent, hHead, -⟩
      · exact ⟨(hMem x).mpr (.inl rfl), hWeighed⟩
      · -- the main parent is new, so that the queue is not empty
        obtain ⟨p, hp⟩ := exists_lookup_of_weight hWeight hm hHead
        have hFresh : parent ∉ hash :: visited := by
          intro hIn
          obtain ⟨mx, hmx, hLt⟩ := hSeen parent p hHead hp parent hIn
          rw [Option.some.inj (hmx.symm.trans hp)] at hLt
          exact Int.lt_irrefl _ hLt
        have hIn : parent ∈ m.parents.take 1 := by
          obtain ⟨rest, hParents⟩ := List.head?_eq_some_iff.mp hHead
          rw [hParents]
          exact List.mem_cons_self
        have hNotMem := List.filter_eq_nil_iff.mp hQueue parent (by rwa [if_neg (Int.not_lt.mpr hLe)])
        exact absurd (decide_eq_true hFresh) hNotMem
    | cons parent rest =>
      obtain ⟨-, hHead, rfl⟩ := eq_of_filter_eq_cons hQueue
      obtain ⟨p, hp⟩ := exists_lookup_of_weight hWeight hm hHead
      rw [hQueue] at h
      obtain ⟨hKeep, hCredit⟩ := ih h hp (hSeen parent p hHead hp)
      refine ⟨fun x hx => hKeep x ((hMem x).mpr (.inr hx)), fun x hx => ?_⟩
      rcases (credited_iff hm).mp hx with rfl | ⟨-, parent', hHead', hCredited⟩
      · exact ⟨hKeep x ((hMem x).mpr (.inl rfl)), hWeighed⟩
      · obtain rfl := Option.some.inj (hHead.symm.trans hHead')
        exact hCredit x hCredited

theorem buildScoresMap_visits {messages : List (Bytes × Bytes)} {lca : Bytes} {scores : Scores}
    (h : buildScoresMap dag messages lca = .ok scores)
    (hHeld : ∀ message ∈ messages, ∃ m, dag.lookup message.2 = some m) {message : Bytes × Bytes}
    (hMessage : message ∈ messages) :
    ∃ m, dag.lookup lca = some m ∧ ∀ x, Credited dag m.blockNumber message.2 x → x ∈ scores ∧ Weighed dag x := by
  have hAll := foldlM_ok_induction (fun taken scores => ∀ message ∈ taken, ∃ m, dag.lookup lca = some m ∧
    ∀ x, Credited dag m.blockNumber message.2 x → x ∈ scores ∧ Weighed dag x) h (by simp) ?_
  · exact hAll message hMessage
  · intro taken item scores₀ scores₁ hItem hTaken hStep message hMem
    obtain ⟨lcaMetadata, hLca, hLoop⟩ := exists_of_bind_ok hStep
    obtain ⟨m, hm⟩ := hHeld item hItem
    obtain ⟨hKeep, hCredit⟩ := addWeightLoop_visits hLoop hm (by simp)
    rcases List.mem_append.mp hMem with hMem | hMem
    · obtain ⟨m', hm', hScored⟩ := hTaken message hMem
      exact ⟨m', hm', fun x hx => ⟨hKeep x (hScored x hx).1, (hScored x hx).2⟩⟩
    · obtain rfl := List.mem_singleton.mp hMem
      exact ⟨lcaMetadata, lookupUnsafe_eq_ok.mp hLca, hCredit⟩

end F1r3Node.Dag
