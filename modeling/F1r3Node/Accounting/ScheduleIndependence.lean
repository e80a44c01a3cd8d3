import F1r3Node.Accounting.Scheduling

/-! # When exhaustion does not depend on the schedule

From a balance `b` some interleaving fails exactly when `b` is below `worstNeed`, and some succeeds exactly when it is
at least `leastNeed`.
-/

namespace F1r3Node.Accounting

open Lib.Interleaving

variable {m final : Machine}

theorem Machine.Completes.eq_of_remaining_eq_zero (h : m.Completes final)
    (hn : remaining m.branches = 0) : final = m := by
  have hDone := (done_of_remaining_eq_zero hn)
  rcases h.eq_or_step with ⟨-, hEq⟩ | ⟨next, hStep, -⟩
  · exact hEq
  · exact absurd hDone hStep.not_done

theorem Machine.completes_self (hn : remaining m.branches = 0) : m.Completes m :=
  ⟨.refl, (done_of_remaining_eq_zero hn)⟩

theorem zero_le_min_balance {b a : Int} (hCovered : a ≤ b) : 0 ≤ min i64Max (b - a) := by
  have hMax : 0 ≤ i64Max := by decide
  omega

theorem exists_failing_iff (n : Nat) (m : Machine) (hn : remaining m.branches = n)
    (hNonneg : 0 ≤ m.cost.balance) (hClean : m.failed = false) :
    (∃ final, m.Completes final ∧ final.failed = true) ↔
      m.cost.balance < worst balanceBefore n m.branches := by
  induction n generalizing m with
  | zero =>
    constructor
    · rintro ⟨final, hRun, hFailed⟩
      rw [hRun.eq_of_remaining_eq_zero hn, hClean] at hFailed
      cases hFailed
    · intro hLt
      exact absurd hLt (not_lt.mpr hNonneg)
  | succ n ih =>
    have hTop := balance_le_max m.cost
    constructor
    · rintro ⟨final, hRun, hFailed⟩
      rcases hRun.eq_or_step with ⟨hDone, -⟩ | ⟨next, hStep, hRest⟩
      · exact absurd hDone (not_done_of_remaining hn)
      · obtain ⟨i, amount, rest, hNext, hBalance, hCase⟩ := hStep.cases_of_nonneg hNonneg
        have hLe := le_worst balanceBefore n hNext
        apply lt_of_lt_of_le _ hLe
        rw [← not_le, balanceBefore_le_iff hNonneg hTop, not_le, ← hBalance]
        rcases hCase with ⟨hCovered, hBranches, hFlag⟩ | ⟨hUncovered, -⟩
        · have hRem := remaining_move hn hNext
          rw [← hBranches] at hRem ⊢
          apply (ih next hRem _ (hFlag.trans hClean)).mp ⟨final, hRest, hFailed⟩
          rw [hBalance]
          exact zero_le_min_balance hCovered
        · have hZero := worst_nonneg balanceBefore_nonneg n (m.branches.set i rest)
          omega
    · intro hLt
      obtain ⟨i, amount, rest, hNext, hEq⟩ := exists_move_worst balanceBefore n
        (not_done_of_remaining hn)
      rw [hEq, ← not_le, balanceBefore_le_iff hNonneg hTop, not_le] at hLt
      rcases le_or_gt amount.value.toInt m.cost.balance with hCovered | hUncovered
      · obtain ⟨next, hStep, hBranches, hFlag, hBalance⟩ :=
          Machine.step_of_covered hNonneg hNext hCovered
        rw [← hBalance, ← hBranches] at hLt
        have hRem := remaining_move hn hNext
        rw [← hBranches] at hRem
        have hNonneg' : 0 ≤ next.cost.balance := hBalance ▸ zero_le_min_balance hCovered
        obtain ⟨final, ⟨hRun, hDone⟩, hFailed⟩ :=
          (ih next hRem hNonneg' (hFlag.trans hClean)).mpr hLt
        exact ⟨final, ⟨.head hStep hRun, hDone⟩, hFailed⟩
      · exact Machine.exists_failure_of_uncovered hNonneg hNext hUncovered

theorem exists_succeeding_iff (n : Nat) (m : Machine) (hn : remaining m.branches = n)
    (hNonneg : 0 ≤ m.cost.balance) (hClean : m.failed = false) :
    (∃ final, m.Completes final ∧ final.failed = false) ↔
      least balanceBefore n m.branches ≤ m.cost.balance := by
  induction n generalizing m with
  | zero => exact ⟨fun _ => hNonneg, fun _ => ⟨m, Machine.completes_self hn, hClean⟩⟩
  | succ n ih =>
    have hTop := balance_le_max m.cost
    constructor
    · rintro ⟨final, hRun, hSucceeds⟩
      rcases hRun.eq_or_step with ⟨hDone, -⟩ | ⟨next, hStep, hRest⟩
      · exact absurd hDone (not_done_of_remaining hn)
      · obtain ⟨i, amount, rest, hNext, hBalance, hCase⟩ := hStep.cases_of_nonneg hNonneg
        apply (least_le balanceBefore n hNext).trans
        rw [balanceBefore_le_iff hNonneg hTop, ← hBalance]
        rcases hCase with ⟨hCovered, hBranches, hFlag⟩ | ⟨-, hFlag⟩
        · have hRem := remaining_move hn hNext
          rw [← hBranches] at hRem ⊢
          apply (ih next hRem _ (hFlag.trans hClean)).mp ⟨final, hRest, hSucceeds⟩
          rw [hBalance]
          exact zero_le_min_balance hCovered
        · rw [Machine.failed_of_run hRest.1 hFlag] at hSucceeds
          cases hSucceeds
    · intro hLe
      obtain ⟨i, amount, rest, hNext, hEq⟩ := exists_move_least balanceBefore n
        (not_done_of_remaining hn)
      rw [hEq, balanceBefore_le_iff hNonneg hTop] at hLe
      have hZero := least_nonneg balanceBefore_nonneg n (m.branches.set i rest)
      have hCovered : amount.value.toInt ≤ m.cost.balance := by omega
      obtain ⟨next, hStep, hBranches, hFlag, hBalance⟩ :=
        Machine.step_of_covered hNonneg hNext hCovered
      rw [← hBalance, ← hBranches] at hLe
      have hRem := remaining_move hn hNext
      rw [← hBranches] at hRem
      have hNonneg' : 0 ≤ next.cost.balance := hBalance ▸ zero_le_min_balance hCovered
      obtain ⟨final, ⟨hRun, hDone⟩, hSucceeds⟩ := (ih next hRem hNonneg' (hFlag.trans hClean)).mpr hLe
      exact ⟨final, ⟨.head hStep hRun, hDone⟩, hSucceeds⟩

/-- The final balance when a rise of `rise` hits the cap. -/
def finalBalance (b rise charges : Int) : Int := min b (i64Max - rise) - charges

def chargeSum (branch : List Cost) : Int := (branch.map fun amount => amount.value.toInt).sum

theorem total_sum_after {family : List (List Cost)} {i : Nat} {amount : Cost} {rest : List Cost}
    (hNext : family[i]? = some (amount :: rest)) :
    total chargeSum (family.set i rest) = total chargeSum family - amount.value.toInt := by
  rw [total_set chargeSum rest hNext, chargeSum, List.map_cons, List.sum_cons, chargeSum]
  omega

theorem final_balance_bounds (n : Nat) (m : Machine) (hn : remaining m.branches = n)
    (hNonneg : 0 ≤ m.cost.balance) (hRun : m.Completes final) (hSucceeds : final.failed = false) :
    finalBalance m.cost.balance (worst riseBefore n m.branches)
        (total chargeSum m.branches) ≤ final.cost.balance ∧
      final.cost.balance ≤ finalBalance m.cost.balance (least riseBefore n m.branches)
        (total chargeSum m.branches) := by
  induction n generalizing m with
  | zero =>
    have hTop := balance_le_max m.cost
    have hSum := (done_of_remaining_eq_zero hn).total_eq_zero chargeSum rfl
    rw [hRun.eq_of_remaining_eq_zero hn, hSum]
    simp only [finalBalance, worst, least, extremal]
    omega
  | succ n ih =>
    have hTop := balance_le_max m.cost
    rcases hRun.eq_or_step with ⟨hDone, -⟩ | ⟨next, hStep, hRest⟩
    · exact absurd hDone (not_done_of_remaining hn)
    · obtain ⟨i, amount, rest, hNext, hBalance, hCase⟩ := hStep.cases_of_nonneg hNonneg
      rcases hCase with ⟨hCovered, hBranches, -⟩ | ⟨-, hFlag⟩
      · have hRem := remaining_move hn hNext
        have hSum := total_sum_after hNext
        have hWorst := le_worst riseBefore n hNext
        have hLeast := least_le riseBefore n hNext
        have hZero := least_nonneg riseBefore_nonneg n (m.branches.set i rest)
        have hZero' := worst_nonneg riseBefore_nonneg n (m.branches.set i rest)
        rw [← hBranches] at hRem hSum hWorst hLeast hZero hZero'
        obtain ⟨hLow, hHigh⟩ := ih next hRem (hBalance ▸ zero_le_min_balance hCovered) hRest
        rw [hSum, hBalance] at hLow hHigh
        simp only [finalBalance, riseBefore] at hLow hHigh hWorst hLeast ⊢
        omega
      · rw [Machine.failed_of_run hRest.1 hFlag] at hSucceeds
        cases hSucceeds

theorem finalBalance_before {b rise charges : Int} {amount : Cost} (hTop : b ≤ i64Max) (hRise : 0 ≤ rise) :
    finalBalance (min i64Max (b - amount.value.toInt)) rise (charges - amount.value.toInt) =
      finalBalance b (riseBefore amount rise) charges := by
  simp only [finalBalance, riseBefore]
  omega

theorem exists_final_balance {pick : List Int → Option Int} (hPick : Picks pick) (n : Nat) (m : Machine)
    (hn : remaining m.branches = n) (hNonneg : 0 ≤ m.cost.balance) (hClean : m.failed = false)
    (hSafe : ∀ final, m.Completes final → final.failed = false) :
    ∃ final, m.Completes final ∧ final.cost.balance =
      finalBalance m.cost.balance (extremal pick riseBefore n m.branches)
        (total chargeSum m.branches) := by
  induction n generalizing m with
  | zero =>
    have hTop := balance_le_max m.cost
    have hSum := (done_of_remaining_eq_zero hn).total_eq_zero chargeSum rfl
    refine ⟨m, Machine.completes_self hn, ?_⟩
    rw [hSum]
    simp only [finalBalance, extremal]
    omega
  | succ n ih =>
    obtain ⟨i, amount, rest, hNext, hEq⟩ := exists_move_extremal pick riseBefore hPick n
      (not_done_of_remaining hn)
    have hCovered : amount.value.toInt ≤ m.cost.balance := by
      by_contra hUncovered
      obtain ⟨final, hRun, hFailed⟩ :=
        Machine.exists_failure_of_uncovered hNonneg hNext (not_le.mp hUncovered)
      rw [hSafe final hRun] at hFailed
      cases hFailed
    obtain ⟨next, hStep, hBranches, hFlag, hBalance⟩ :=
      Machine.step_of_covered hNonneg hNext hCovered
    have hRem := remaining_move hn hNext
    rw [← hBranches] at hRem
    obtain ⟨final, ⟨hRun, hDone⟩, hFinal⟩ := ih next hRem
      (hBalance ▸ zero_le_min_balance hCovered) (hFlag.trans hClean)
      fun final h => hSafe final ⟨.head hStep h.1, h.2⟩
    refine ⟨final, ⟨.head hStep hRun, hDone⟩, ?_⟩
    rw [hFinal, hBalance, hBranches, total_sum_after hNext, hEq]
    exact finalBalance_before (balance_le_max m.cost) (extremal_nonneg pick hPick riseBefore_nonneg n _)

theorem leastRise_le_worstRise (family : List (List Cost)) : leastRise family ≤ worstRise family := by
  rw [leastRise, worstRise]
  generalize hn : remaining family = n
  induction n generalizing family with
  | zero => exact le_rfl
  | succ n ih =>
    obtain ⟨i, amount, rest, hNext, hEq⟩ := exists_move_worst riseBefore n
      (not_done_of_remaining hn)
    have hLeast := least_le riseBefore n hNext
    have hTail := ih (family.set i rest) (remaining_move hn hNext)
    rw [hEq]
    simp only [riseBefore] at hLeast ⊢
    omega

theorem failed_of_negative (hNeg : m.cost.balance < 0) (hRun : m.Completes final) :
    Done m.branches ∧ final = m ∨ final.failed = true := by
  rcases hRun.eq_or_step with hSelf | ⟨next, hStep, hRest⟩
  · exact .inl hSelf
  · right
    cases hStep with
    | charged i amount rest hNext hOk =>
      rw [charge_of_negative hNeg] at hOk
      cases hOk
    | exhausted i amount rest hNext hError => exact Machine.failed_of_run hRest.1 rfl

theorem scheduleIndependent_of_negative {initial : Cost} (family : List (List Cost))
    (hNeg : initial.value.toInt < 0) : ScheduleIndependent initial family := by
  have hStart : (Machine.start initial family).cost.balance < 0 := hNeg
  by_cases hDone : Done family
  · have hSelf : ∀ final, (Machine.start initial family).Completes final →
        final = Machine.start initial family := by
      intro final hRun
      rcases hRun.eq_or_step with ⟨-, hEq⟩ | ⟨next, hStep, -⟩
      · exact hEq
      · exact absurd hDone hStep.not_done
    refine ⟨.inr fun final hRun => by rw [hSelf final hRun]; rfl, fun _ final final' hRun hRun' => ?_⟩
    rw [hSelf final hRun, hSelf final' hRun']
  · have hFails : ∀ final, (Machine.start initial family).Completes final → final.failed = true := by
      intro final hRun
      rcases failed_of_negative hStart hRun with ⟨h, -⟩ | h
      · exact absurd h hDone
      · exact h
    refine ⟨.inl hFails, fun hSafe final final' hRun _ => ?_⟩
    have hFailed := hFails final hRun
    rw [hSafe final hRun] at hFailed
    cases hFailed

theorem final_balances_agree_iff {initial : Cost} (family : List (List Cost))
    (hNonneg : 0 ≤ initial.value.toInt)
    (hSafe : ∀ final, (Machine.start initial family).Completes final → final.failed = false) :
    (∀ final final', (Machine.start initial family).Completes final →
        (Machine.start initial family).Completes final' → final.cost.balance = final'.cost.balance) ↔
      (initial.value.toInt + worstRise family ≤ i64Max ∨ worstRise family = leastRise family) := by
  have hOrder := leastRise_le_worstRise family
  constructor
  · intro hAgree
    obtain ⟨low, hLow, hLowEq⟩ := exists_final_balance picks_max _
      (Machine.start initial family) rfl hNonneg rfl hSafe
    obtain ⟨high, hHigh, hHighEq⟩ := exists_final_balance picks_min _
      (Machine.start initial family) rfl hNonneg rfl hSafe
    have hEq := hAgree low high hLow hHigh
    rw [hLowEq, hHighEq] at hEq
    change finalBalance initial.value.toInt (worstRise family) _ =
      finalBalance initial.value.toInt (leastRise family) _ at hEq
    simp only [finalBalance] at hEq
    omega
  · intro hRise final final' hRun hRun'
    have h := final_balance_bounds _ (Machine.start initial family) rfl hNonneg hRun (hSafe final hRun)
    have h' := final_balance_bounds _ (Machine.start initial family) rfl hNonneg hRun' (hSafe final' hRun')
    change finalBalance initial.value.toInt (worstRise family) (total chargeSum family) ≤ _ ∧
      _ ≤ finalBalance initial.value.toInt (leastRise family) (total chargeSum family) at h h'
    simp only [finalBalance] at h h'
    omega

/-- Failure and cost are schedule independent exactly when even the most favourable
interleaving fails, or the least favourable one succeeds and the cap never makes a
difference between two interleavings. -/
theorem scheduleIndependent_iff (initial : Cost) (family : List (List Cost)) :
    ScheduleIndependent initial family ↔
      initial.value.toInt < leastNeed family ∨
      worstNeed family ≤ initial.value.toInt ∧
        (initial.value.toInt + worstRise family ≤ i64Max ∨ worstRise family = leastRise family) := by
  rcases lt_or_ge initial.value.toInt 0 with hNeg | hNonneg
  · have hLeast : 0 ≤ leastNeed family := least_nonneg balanceBefore_nonneg _ _
    exact iff_of_true (scheduleIndependent_of_negative family hNeg) (.inl (hNeg.trans_le hLeast))
  have hFailing := exists_failing_iff _ (Machine.start initial family) rfl hNonneg rfl
  have hSucceeding := exists_succeeding_iff _ (Machine.start initial family) rfl hNonneg rfl
  change _ ↔ initial.value.toInt < worstNeed family at hFailing
  change _ ↔ leastNeed family ≤ initial.value.toInt at hSucceeding
  have hNone : (∀ final, (Machine.start initial family).Completes final → final.failed = false) ↔
      worstNeed family ≤ initial.value.toInt := by
    rw [← not_lt, ← hFailing]
    simp
  have hAll : (∀ final, (Machine.start initial family).Completes final → final.failed = true) ↔
      initial.value.toInt < leastNeed family := by
    rw [← not_le, ← hSucceeding]
    simp
  rw [ScheduleIndependent, hAll, hNone]
  constructor
  · rintro ⟨hFails | hSafe, hAgree⟩
    · exact .inl hFails
    · exact .inr ⟨hSafe, (final_balances_agree_iff family hNonneg (hNone.mpr hSafe)).mp (hAgree hSafe)⟩
  · rintro (hFails | ⟨hSafe, hRise⟩)
    · refine ⟨.inl hFails, fun hSafe => ?_⟩
      obtain ⟨final, hRun⟩ := (Machine.start initial family).exists_completion
      have hFailed := hAll.mpr hFails final hRun
      rw [hNone.mpr hSafe final hRun] at hFailed
      cases hFailed
    · exact ⟨.inr hSafe, fun _ => (final_balances_agree_iff family hNonneg (hNone.mpr hSafe)).mpr hRise⟩

def refundingFamily : List (List Cost) :=
  [[⟨5, "produces storage"⟩, ⟨-5, "consumes storage"⟩], [⟨5, "produces storage"⟩]]

theorem refundingFamily_depends_on_schedule :
    ¬ ScheduleIndependent ⟨5, "initial phlo"⟩ refundingFamily := by
  rintro ⟨hFailure, -⟩
  have hFailing := (exists_failing_iff 3 (Machine.start ⟨5, "initial phlo"⟩ refundingFamily)
    rfl (by decide) rfl).mpr (by decide)
  have hSucceeding := (exists_succeeding_iff 3 (Machine.start ⟨5, "initial phlo"⟩ refundingFamily)
    rfl (by decide) rfl).mpr (by decide)
  obtain ⟨failing, hRun, hFailed⟩ := hFailing
  obtain ⟨succeeding, hRun', hSucceeds⟩ := hSucceeding
  rcases hFailure with hAll | hNone
  · rw [hAll succeeding hRun'] at hSucceeds
    cases hSucceeds
  · rw [hNone failing hRun] at hFailed
    cases hFailed

end F1r3Node.Accounting
