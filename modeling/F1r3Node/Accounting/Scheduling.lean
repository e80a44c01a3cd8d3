import F1r3Node.Accounting.CostManager
import F1r3Node.Lib.Interleaving

/-! # Parallel branches on one phlogiston balance

The branches that the reducer spawns charge one `CostManager`; a branch whose charge fails stops there.
-/

namespace F1r3Node.Accounting

open Relation Lib.Interleaving

structure Machine where
  cost : CostManager
  branches : List (List Cost)
  failed : Bool

inductive Machine.Step : Machine → Machine → Prop
  | charged (m : Machine) (i : Nat) (amount : Cost) (rest : List Cost)
      (hNext : m.branches[i]? = some (amount :: rest)) (hOk : (m.cost.charge amount).2 = .ok ()) :
      Step m ⟨(m.cost.charge amount).1, m.branches.set i rest, m.failed⟩
  | exhausted (m : Machine) (i : Nat) (amount : Cost) (rest : List Cost)
      (hNext : m.branches[i]? = some (amount :: rest))
      (hError : (m.cost.charge amount).2 = .error .outOfPhlogistonsError) :
      Step m ⟨(m.cost.charge amount).1, m.branches.set i [], true⟩

def Machine.start (initial : Cost) (family : List (List Cost)) : Machine :=
  ⟨CostManager.new initial, family, false⟩

def Machine.Completes (m final : Machine) : Prop :=
  ReflTransGen Machine.Step m final ∧ Done final.branches

/-- Failure and, when nothing fails, the final balance are the same in every interleaving. -/
def ScheduleIndependent (initial : Cost) (family : List (List Cost)) : Prop :=
  ((∀ final, (Machine.start initial family).Completes final → final.failed = true) ∨
    (∀ final, (Machine.start initial family).Completes final → final.failed = false)) ∧
  ((∀ final, (Machine.start initial family).Completes final → final.failed = false) →
    ∀ final final', (Machine.start initial family).Completes final →
      (Machine.start initial family).Completes final' → final.cost.balance = final'.cost.balance)

/-- The balance needed before a charge to hold `x` after it; more than `i64Max` when no
balance gives `x`. -/
def balanceBefore (amount : Cost) (x : Int) : Int :=
  if x ≤ i64Max then max 0 (amount.value.toInt + x) else i64Max + 1

/-- The rise of the balance still to come before a charge, when it is `x` after it. -/
def riseBefore (amount : Cost) (x : Int) : Int := max 0 (-amount.value.toInt + x)

def worstNeed (family : List (List Cost)) : Int := worst balanceBefore (remaining family) family

def leastNeed (family : List (List Cost)) : Int := least balanceBefore (remaining family) family

def worstRise (family : List (List Cost)) : Int := worst riseBefore (remaining family) family

def leastRise (family : List (List Cost)) : Int := least riseBefore (remaining family) family

theorem balanceBefore_nonneg (amount : Cost) (x : Int) : 0 ≤ balanceBefore amount x := by
  have hMax : 0 ≤ i64Max := by decide
  rw [balanceBefore]
  split
  · exact le_max_left _ _
  · omega

variable {amount : Cost}

theorem balanceBefore_le_iff {x b : Int} (hNonneg : 0 ≤ b) (hMax : b ≤ i64Max) :
    balanceBefore amount x ≤ b ↔ x ≤ min i64Max (b - amount.value.toInt) := by
  rw [balanceBefore]
  split <;> omega

theorem riseBefore_nonneg (amount : Cost) (x : Int) : 0 ≤ riseBefore amount x := le_max_left _ _

variable {m : Machine}

theorem Machine.Step.cases_of_nonneg {next : Machine} (hStep : m.Step next) (hNonneg : 0 ≤ m.cost.balance) :
    ∃ (i : Nat) (amount : Cost) (rest : List Cost), m.branches[i]? = some (amount :: rest) ∧
      next.cost.balance = min i64Max (m.cost.balance - amount.value.toInt) ∧
      (amount.value.toInt ≤ m.cost.balance ∧ next.branches = m.branches.set i rest ∧
          next.failed = m.failed ∨
        m.cost.balance < amount.value.toInt ∧ next.failed = true) := by
  cases hStep with
  | charged i amount rest hNext hOk =>
    obtain ⟨hBalance, hIff⟩ := charge_cases hNonneg amount
    exact ⟨i, amount, rest, hNext, hBalance, .inl ⟨hIff.mp hOk, rfl, rfl⟩⟩
  | exhausted i amount rest hNext hError =>
    obtain ⟨hBalance, hIff⟩ := charge_cases hNonneg amount
    refine ⟨i, amount, rest, hNext, hBalance, .inr ⟨not_le.mp fun h => ?_, rfl⟩⟩
    rw [hIff.mpr h] at hError
    cases hError

variable {i : Nat} {rest : List Cost}

theorem Machine.exists_step (hNext : m.branches[i]? = some (amount :: rest)) :
    ∃ next, m.Step next ∧ remaining next.branches < remaining m.branches := by
  have hRest := remaining_set rest hNext
  have hNil := remaining_set [] hNext
  simp only [List.length_cons, List.length_nil] at hRest hNil
  rcases hCharge : (m.cost.charge amount).2 with error | _
  · cases error
    exact ⟨_, .exhausted m i amount rest hNext hCharge, by simp only; omega⟩
  · exact ⟨_, .charged m i amount rest hNext hCharge, by simp only; omega⟩

theorem Machine.exists_completion (m : Machine) : ∃ final, m.Completes final := by
  induction hn : remaining m.branches using Nat.strong_induction_on generalizing m with
  | _ n ih =>
    rcases done_or_move m.branches with hDone | ⟨i, amount, rest, hNext⟩
    · exact ⟨m, .refl, hDone⟩
    · obtain ⟨next, hStep, hLt⟩ := m.exists_step hNext
      obtain ⟨final, hRun, hDone⟩ := ih _ (hn ▸ hLt) next rfl
      exact ⟨final, .head hStep hRun, hDone⟩

theorem Machine.failed_of_run {final : Machine} (hRun : ReflTransGen Machine.Step m final)
    (hFailed : m.failed = true) : final.failed = true := by
  induction hRun with
  | refl => exact hFailed
  | tail _ hStep ih =>
    cases hStep with
    | charged => exact ih
    | exhausted => rfl

theorem Machine.Completes.eq_or_step {final : Machine} (h : m.Completes final) :
    Done m.branches ∧ final = m ∨ ∃ next, m.Step next ∧ next.Completes final := by
  obtain ⟨hRun, hDone⟩ := h
  rcases ReflTransGen.cases_head hRun with rfl | ⟨next, hStep, hRest⟩
  · exact .inl ⟨hDone, rfl⟩
  · exact .inr ⟨next, hStep, hRest, hDone⟩

theorem Machine.Step.not_done {next : Machine} (hStep : m.Step next) : ¬ Done m.branches := by
  intro hDone
  cases hStep with
  | charged _ _ _ hNext | exhausted _ _ _ hNext => exact hDone.no_move hNext

theorem Machine.step_of_covered (hNonneg : 0 ≤ m.cost.balance) (hNext : m.branches[i]? = some (amount :: rest))
    (hCovered : amount.value.toInt ≤ m.cost.balance) :
    ∃ next, m.Step next ∧ next.branches = m.branches.set i rest ∧ next.failed = m.failed ∧
      next.cost.balance = min i64Max (m.cost.balance - amount.value.toInt) := by
  obtain ⟨hBalance, hIff⟩ := charge_cases hNonneg amount
  exact ⟨_, .charged m i amount rest hNext (hIff.mpr hCovered), rfl, rfl, hBalance⟩

theorem Machine.exists_failure_of_uncovered (hNonneg : 0 ≤ m.cost.balance)
    (hNext : m.branches[i]? = some (amount :: rest)) (hUncovered : m.cost.balance < amount.value.toInt) :
    ∃ final, m.Completes final ∧ final.failed = true := by
  obtain ⟨-, hIff⟩ := charge_cases hNonneg amount
  have hError : (m.cost.charge amount).2 = .error .outOfPhlogistonsError := by
    rcases hCharge : (m.cost.charge amount).2 with error | _
    · cases error
      rfl
    · exact absurd (hIff.mp hCharge) (not_le.mpr hUncovered)
  have hStep := Machine.Step.exhausted m i amount rest hNext hError
  obtain ⟨final, hRun, hDone⟩ := Machine.exists_completion
    ⟨(m.cost.charge amount).1, m.branches.set i [], true⟩
  exact ⟨final, ⟨.head hStep hRun, hDone⟩, Machine.failed_of_run hRun rfl⟩

end F1r3Node.Accounting
